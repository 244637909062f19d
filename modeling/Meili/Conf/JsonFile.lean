/-
  Meili.Conf.JsonFile — `until_parse_json_file` of `src/utils/str/str_helpers.c`.

  The file is read line by line into `temp_buf`, and each line is appended to `json_str`,
  which is as long as the file.  The size that is handed to `fgets` is the length of the
  file, not that of `temp_buf`: a longer buffer is promised than there is, and a file of one
  byte is never read.

    §1  the source;
    §2  lines and what one `fgets` reads of them;
    §3  one iteration (`Reading.step_cases`);
    §4  the loop: where it ends, and the files for which it does not;
    §5  `loads_iff`: when a file is loaded.

  The file is there and can be read, and it is shorter than 2^63 bytes.  A store outside of a
  buffer, and an `int` that overflows, are `undefined`.
-/
import Mathlib.Algebra.Group.Nat.Defs
import Meili.Conf.Lines

namespace Meili.Conf.JsonFile

open Meili.Lib.CString

/-! ## §1. The source. -/

/-- `malloc`: a block has as many cells as were asked for, and `none` is `NULL`. -/
structure Malloc where
  alloc : ℕ → Option (List Char)
  length_eq : ∀ size cells, alloc size = some cells → cells.length = size

/-- `char temp_buf[255]`, with what stands in it before it is written. -/
structure TempBuf where
  cells : List Char
  length_eq : cells.length = 255

/-- The first line of a text, with its newline. -/
def firstLine : Str → Str
  | [] => []
  | c :: rest => if c = '\n' then [c] else c :: firstLine rest

/-- `fgets(s, n, fp)`: the characters it stores in front of a NUL, and what is then left of
the file; `none` is `NULL`. -/
def fgets (n : ℤ) (rest : Str) : Option (Str × Str) :=
  if n ≤ 0 then none
  else if n = 1 then some ([], rest)
  else if rest = [] then none
  else
    let line := (firstLine rest).take (n - 1).toNat
    some (line, rest.drop line.length)

/-- The variables of the loop, and what is left of the file. -/
structure ReadLoop where
  tempBuf : List Char
  jsonStr : List Char
  /-- `tmp - json_str`. -/
  tmp : ℕ
  rest : Str

/-- What one iteration does. -/
inductive ReadStep where
  | ended
  | undefined
  | next (s : ReadLoop)

/-- The condition of the loop, and its body. -/
def ReadLoop.step (fileLength : ℤ) (s : ReadLoop) : ReadStep :=
  match fgets fileLength s.rest with
  | none => .ended
  | some (line, rest) =>
      match store s.tempBuf 0 (line ++ [nul]) with
      | none => .undefined
      | some tempBuf =>
          -- `strlen(line)`, and the characters that `memcpy` takes
          match readStr tempBuf 0 with
          | none => .undefined
          | some str =>
              match store s.jsonStr s.tmp str with
              | none => .undefined
              | some jsonStr => .next ⟨tempBuf, jsonStr, s.tmp + str.length, rest⟩

/-- Where the loop is after some iterations. -/
inductive ReadRun where
  | running
  | undefined
  | ended (s : ReadLoop)

/-- The loop, with so many iterations at most. -/
def readLoop (fileLength : ℤ) : ℕ → ReadLoop → ReadRun
  | 0, _ => .running
  | k + 1, s =>
      match s.step fileLength with
      | .ended => .ended s
      | .undefined => .undefined
      | .next s' => readLoop fileLength k s'

/-- Where the function is: still in its loop, or at its end. -/
inductive Load where
  | running
  | undefined
  /-- `NULL` is returned, and `cJSON_Parse` is not called. -/
  | null
  /-- `cJSON_Parse(json_str)` is called. -/
  | parse (jsonStr : List Char)

/-- `(int)` of a `long`. -/
def toInt (x : ℤ) : ℤ := x.bmod (2 ^ 32)

/-- `INT_MAX`. -/
def intMax : ℤ := 2147483647

/-- `(size_t)` of an `int`. -/
def toSize (x : ℤ) : ℕ := (x % 2 ^ 64).toNat

/-- What follows the loop: `json_str[file_length]` is set. -/
def finish (fileLength : ℤ) (s : ReadLoop) : Load :=
  if fileLength < 0 then .undefined
  else
    match store s.jsonStr fileLength.toNat [nul] with
    | none => .undefined
    | some jsonStr => .parse jsonStr

/-- `until_parse_json_file(filename)`, with so many iterations of its loop at most. -/
def untilParseJsonFile (fopen : Str → Option Str) (malloc : Malloc) (tempBuf : TempBuf)
    (fuel : ℕ) (filename : Option Str) : Load :=
  match filename with
  | none => .null
  | some [] => .null
  | some name =>
      match fopen name with
      | none => .null
      | some file =>
          let fileLength := toInt file.length
          if fileLength = intMax then .undefined
          else
            match malloc.alloc (toSize (fileLength + 1)) with
            | none => .null
            | some jsonStr =>
                match readLoop fileLength fuel ⟨tempBuf.cells, jsonStr, 0, file⟩ with
                | .running => .running
                | .undefined => .undefined
                | .ended s => finish fileLength s

/-- The loop ends, with every store inside its buffer, and `cJSON_Parse` gets the text of the
file. -/
def Loads (fopen : Str → Option Str) (malloc : Malloc) (tempBuf : TempBuf) (name file : Str) :
    Prop :=
  ∃ fuel jsonStr, untilParseJsonFile fopen malloc tempBuf fuel (some name) = .parse jsonStr
    ∧ readStr jsonStr 0 = some file

/-- The memory for the file can be had, it has not one byte, its length and one more is an
`int`, and it is no longer than `temp_buf` or none of its lines is. -/
structure Loadable (malloc : Malloc) (file : Str) : Prop where
  memory : (malloc.alloc (file.length + 1)).isSome
  ne_one : file.length ≠ 1
  int : file.length + 1 ≤ 2147483647
  lines : file.length ≤ 255 ∨ ∀ line ∈ linesOf file, line.length ≤ 254

/-! ## §2. Lines. -/

theorem firstLine_ne_nil {rest : Str} (h : rest ≠ []) : firstLine rest ≠ [] := by
  cases rest with
  | nil => exact absurd rfl h
  | cons c rest =>
      unfold firstLine
      split <;> simp

theorem firstLine_eq_take (rest : Str) : firstLine rest = rest.take (firstLine rest).length := by
  induction rest with
  | nil => rfl
  | cons c rest ih =>
      unfold firstLine
      split
      · rfl
      · rw [List.length_cons, List.take_succ_cons, ← ih]

theorem firstLine_length_le (rest : Str) : (firstLine rest).length ≤ rest.length := by
  have htake := congrArg List.length (firstLine_eq_take rest)
  rw [List.length_take] at htake
  omega

theorem linesFrom_eq_cons {line rest : Str} (h : line ++ rest ≠ []) :
    linesFrom line rest
      = (line ++ firstLine rest) :: linesOf (rest.drop (firstLine rest).length) := by
  induction rest generalizing line with
  | nil =>
      rw [List.append_nil] at h
      rw [linesFrom, if_neg h, firstLine, List.append_nil]
      rfl
  | cons c rest ih =>
      unfold linesFrom firstLine
      by_cases hc : c = '\n'
      · rw [if_pos hc, if_pos hc]
        rfl
      · rw [if_neg hc, if_neg hc, ih (by simp), List.append_assoc, List.singleton_append,
          List.length_cons, List.drop_succ_cons]

/-- The first of the lines, and the others. -/
theorem linesOf_eq_cons {rest : Str} (h : rest ≠ []) :
    linesOf rest = firstLine rest :: linesOf (rest.drop (firstLine rest).length) := by
  have hempty : [] ++ rest ≠ [] := h
  exact linesFrom_eq_cons hempty

/-- No read of `k` characters at most gets more than 254: `k` itself is no more, or no line
is longer. -/
def Fits (k : ℕ) (rest : Str) : Prop := k ≤ 254 ∨ ∀ line ∈ linesOf rest, line.length ≤ 254

theorem fits_nil (k : ℕ) : Fits k [] :=
  Or.inr fun _ hline => absurd hline List.not_mem_nil

/-- The next read and those behind it. -/
theorem fits_iff {k : ℕ} {rest : Str} (h : rest ≠ []) :
    Fits k rest ↔ ((firstLine rest).take k).length ≤ 254
      ∧ Fits k (rest.drop ((firstLine rest).take k).length) := by
  unfold Fits
  rw [linesOf_eq_cons h, List.forall_mem_cons, List.length_take]
  by_cases hk : k ≤ 254
  · -- no read is longer than it may be
    simp only [hk, true_or, and_true, true_iff]
    omega
  · by_cases hline : (firstLine rest).length ≤ 254
    · -- the whole line is read
      have hwhole : min k (firstLine rest).length = (firstLine rest).length := by omega
      simp only [hk, false_or, hline, true_and, hwhole]
    · -- so much of it that the buffer is too short
      have hcut : ¬ min k (firstLine rest).length ≤ 254 := by omega
      simp only [hk, false_or, hline, false_and, hcut]

/-! ## §3. One iteration. -/

/-- What the loop keeps: `json_str` begins with what has been read of the file. -/
structure Reading (size : ℕ) (file : Str) (s : ReadLoop) : Prop where
  tempBuf : s.tempBuf.length = 255
  jsonStr : s.jsonStr.length = size
  tmp_le : s.tmp ≤ size
  copied : s.jsonStr.take s.tmp = file.take s.tmp
  rest : s.rest = file.drop s.tmp

section Step

variable {n : ℤ} {size : ℕ} {file : Str} {s : ReadLoop}

/-- Before the first iteration. -/
theorem reading_start (tempBuf : TempBuf) {jsonStr : List Char} (h : jsonStr.length = size)
    (file : Str) : Reading size file ⟨tempBuf.cells, jsonStr, 0, file⟩ where
  tempBuf := tempBuf.length_eq
  jsonStr := h
  tmp_le := Nat.zero_le size
  copied := rfl
  rest := rfl

theorem fgets_end (hn : 2 ≤ n) : fgets n [] = none := by
  unfold fgets
  rw [if_neg (by omega), if_neg (by omega), if_pos rfl]

theorem fgets_line (hn : 2 ≤ n) {rest : Str} (h : rest ≠ []) :
    fgets n rest = some ((firstLine rest).take (n - 1).toNat,
      rest.drop ((firstLine rest).take (n - 1).toNat).length) := by
  unfold fgets
  rw [if_neg (by omega), if_neg (by omega), if_neg h]

/-- What is read stands at the front of the rest. -/
theorem line_eq_take (rest : Str) (k : ℕ) :
    (firstLine rest).take k = rest.take ((firstLine rest).take k).length := by
  have hle := firstLine_length_le rest
  rw [List.length_take]
  conv_lhs => rw [firstLine_eq_take rest, List.take_take]

theorem Reading.nul_notMem (h : Reading size file s) (hnul : nul ∉ file) (k : ℕ) :
    nul ∉ (firstLine s.rest).take k := by
  intro hmem
  rw [line_eq_take, h.rest] at hmem
  exact hnul (List.mem_of_mem_drop (List.mem_of_mem_take hmem))

/-- The line that is appended. -/
theorem Reading.append (h : Reading size file s) {k : ℕ} {tempBuf jsonStr : List Char}
    (htemp : tempBuf.length = 255)
    (hstore : store s.jsonStr s.tmp ((firstLine s.rest).take k) = some jsonStr) :
    Reading size file ⟨tempBuf, jsonStr, s.tmp + ((firstLine s.rest).take k).length,
      s.rest.drop ((firstLine s.rest).take k).length⟩ where
  tempBuf := htemp
  jsonStr := (store_length hstore).trans h.jsonStr
  tmp_le := by
    have hfits := (store_eq_some hstore).1
    rwa [h.jsonStr] at hfits
  copied := by
    show jsonStr.take (s.tmp + ((firstLine s.rest).take k).length) = _
    rw [store_take hstore, h.copied, List.take_add, ← h.rest, ← line_eq_take]
  rest := by
    show s.rest.drop _ = _
    rw [h.rest, List.drop_drop]

/-- **One iteration**, with a size from 2 on: at the end of the file the loop ends; otherwise
the next line is appended, if `temp_buf` and `json_str` have room for it. -/
theorem Reading.step_cases (h : Reading size file s) (hnul : nul ∉ file) (hn : 2 ≤ n) :
    (s.rest = [] ∧ s.step n = .ended)
    ∨ (s.rest ≠ [] ∧ ((firstLine s.rest).take (n - 1).toNat).length ≤ 254
        ∧ s.tmp + ((firstLine s.rest).take (n - 1).toNat).length ≤ size
        ∧ ∃ s', s.step n = .next s' ∧ Reading size file s'
          ∧ s'.rest = s.rest.drop ((firstLine s.rest).take (n - 1).toNat).length
          ∧ s'.tmp = s.tmp + ((firstLine s.rest).take (n - 1).toNat).length)
    ∨ (s.rest ≠ [] ∧ ¬ (((firstLine s.rest).take (n - 1).toNat).length ≤ 254
        ∧ s.tmp + ((firstLine s.rest).take (n - 1).toNat).length ≤ size)
        ∧ s.step n = .undefined) := by
  by_cases hrest : s.rest = []
  · -- the end of the file
    refine Or.inl ⟨hrest, ?_⟩
    unfold ReadLoop.step
    rw [hrest, fgets_end hn]
  · have hline := fgets_line hn hrest
    have hfree := h.nul_notMem hnul (n - 1).toNat
    generalize hread : (firstLine s.rest).take (n - 1).toNat = line at hline hfree ⊢
    unfold ReadLoop.step
    rw [hline]
    by_cases htemp : line.length ≤ 254
    · -- `temp_buf` holds the line, and `strlen` finds its end
      have hroom : 0 + (line ++ [nul]).length ≤ s.tempBuf.length := by
        rw [h.tempBuf, List.length_append, List.length_singleton]
        omega
      have hstore := store_fits hroom
      generalize s.tempBuf.take 0 ++ (line ++ [nul])
        ++ s.tempBuf.drop (0 + (line ++ [nul]).length) = tempBuf at hstore
      have hlength := (store_length hstore).trans h.tempBuf
      simp only [hstore, (holds_store hfree hstore).readStr_eq]
      by_cases hjson : s.tmp + line.length ≤ size
      · have happend := store_fits (h.jsonStr.symm ▸ hjson)
        have hnext := h.append (k := (n - 1).toNat) hlength (hread.symm ▸ happend)
        rw [hread] at hnext
        simp only [happend]
        exact Or.inr (Or.inl ⟨hrest, htemp, hjson, _, rfl, hnext, rfl, rfl⟩)
      · have houtside : store s.jsonStr s.tmp line = none :=
          store_outside (by rw [h.jsonStr]; exact hjson)
        simp only [houtside]
        exact Or.inr (Or.inr ⟨hrest, fun hfits => hjson hfits.2, trivial⟩)
    · -- the line, or its NUL, is stored past `temp_buf`
      have houtside : store s.tempBuf 0 (line ++ [nul]) = none := by
        apply store_outside
        rw [h.tempBuf, List.length_append, List.length_singleton]
        omega
      simp only [houtside]
      exact Or.inr (Or.inr ⟨hrest, fun hfits => htemp hfits.1, trivial⟩)

/-- Every line has a character, so less is left of the file. -/
theorem length_drop_line {rest : Str} (hn : 2 ≤ n) (hrest : rest ≠ []) :
    (rest.drop ((firstLine rest).take (n - 1).toNat).length).length < rest.length := by
  have hline := List.length_pos_iff.mpr (firstLine_ne_nil hrest)
  have hleft := List.length_pos_iff.mpr hrest
  rw [List.length_drop, List.length_take]
  omega

end Step

/-! ## §4. The loop. -/

section Loop

variable {n : ℤ} {size : ℕ} {file : Str} {s s' : ReadLoop}

/-- **The loop**, with a `json_str` of the length of the file: it ends, and the rest of the
file has been appended, or a read that does not fit has gone past `temp_buf`. -/
theorem readLoop_spec (hnul : nul ∉ file) (hn : 2 ≤ n) (hsize : file.length ≤ size) :
    ∀ (k : ℕ) (s : ReadLoop), s.rest.length < k → Reading size file s →
      (Fits (n - 1).toNat s.rest
        ∧ ∃ s', readLoop n k s = .ended s' ∧ Reading size file s' ∧ s'.rest = [])
      ∨ (¬ Fits (n - 1).toNat s.rest ∧ readLoop n k s = .undefined) := by
  intro k
  induction k with
  | zero =>
      intro s hk
      exact absurd hk (Nat.not_lt_zero _)
  | succ k ih =>
      intro s hk h
      rcases h.step_cases hnul hn with
        ⟨hrest, hstep⟩ | ⟨hrest, hline, -, s₁, hstep, h₁, hrest₁, -⟩ | ⟨hrest, hfull, hstep⟩
      · refine Or.inl ⟨hrest ▸ fits_nil _, s, ?_, h, hrest⟩
        rw [readLoop, hstep]
      · -- the next line fits, and what comes behind it decides
        have hshort := length_drop_line hn hrest
        rw [← hrest₁] at hshort
        have hrun : readLoop n (k + 1) s = readLoop n k s₁ := by rw [readLoop, hstep]
        rw [hrun, fits_iff hrest, ← hrest₁]
        rcases ih s₁ (by omega) h₁ with ⟨hfits, hended⟩ | ⟨hfits, hundefined⟩
        · exact Or.inl ⟨⟨hline, hfits⟩, hended⟩
        · exact Or.inr ⟨fun hboth => hfits hboth.2, hundefined⟩
      · -- `json_str` has room for all of the file, so it was `temp_buf` that had not
        refine Or.inr ⟨fun hfits => hfull ⟨((fits_iff hrest).mp hfits).1, ?_⟩, ?_⟩
        · have hle := firstLine_length_le s.rest
          have hlength : s.rest.length = file.length - s.tmp := by
            rw [h.rest, List.length_drop]
          have hpos := List.length_pos_iff.mpr hrest
          rw [List.length_take]
          omega
        · rw [readLoop, hstep]

/-- Where the loop has ended, every read did fit, and the file has been read. -/
theorem readLoop_ended (hnul : nul ∉ file) (hn : 2 ≤ n) :
    ∀ (k : ℕ) (s : ReadLoop), Reading size file s → readLoop n k s = .ended s' →
      Reading size file s' ∧ s'.rest = [] ∧ Fits (n - 1).toNat s.rest := by
  intro k
  induction k with
  | zero =>
      intro s _ hrun
      cases hrun
  | succ k ih =>
      intro s h hrun
      rcases h.step_cases hnul hn with
        ⟨hrest, hstep⟩ | ⟨hrest, hline, -, s₁, hstep, h₁, hrest₁, -⟩ | ⟨-, -, hstep⟩
      · rw [readLoop, hstep] at hrun
        obtain rfl : s = s' := ReadRun.ended.inj hrun
        exact ⟨h, hrest, hrest ▸ fits_nil _⟩
      · rw [readLoop, hstep] at hrun
        obtain ⟨h', hend, hfits⟩ := ih s₁ h₁ hrun
        rw [hrest₁] at hfits
        exact ⟨h', hend, (fits_iff hrest).mpr ⟨hline, hfits⟩⟩
      · rw [readLoop, hstep] at hrun
        cases hrun

/-- **With a size of one** `fgets` reads nothing, and the loop goes on for ever. -/
theorem readLoop_one (k : ℕ) {s : ReadLoop} (h : Reading size file s) :
    readLoop 1 k s = .running := by
  induction k generalizing s with
  | zero => rfl
  | succ k ih =>
      -- a NUL alone is stored, and nothing is read and nothing appended
      have hroom : 0 + ([] ++ [nul]).length ≤ s.tempBuf.length := by
        rw [h.tempBuf]
        decide
      have hstore := store_fits hroom
      generalize s.tempBuf.take 0 ++ ([] ++ [nul])
        ++ s.tempBuf.drop (0 + ([] ++ [nul]).length) = tempBuf at hstore
      have hempty : readStr tempBuf 0 = some [] :=
        (holds_store List.not_mem_nil hstore).readStr_eq
      have happend : store s.jsonStr s.tmp [] = some s.jsonStr := by
        have hfits := store_fits (h.jsonStr.symm ▸ h.tmp_le : s.tmp + [].length ≤ s.jsonStr.length)
        rwa [List.append_nil, List.length_nil, Nat.add_zero, List.take_append_drop] at hfits
      have hstep : s.step 1 = .next ⟨tempBuf, s.jsonStr, s.tmp, s.rest⟩ := by
        unfold ReadLoop.step fgets
        simp only [Int.reduceLE, if_false, if_true, hstore, hempty, happend, List.length_nil,
          Nat.add_zero]
      rw [readLoop, hstep]
      exact ih ⟨(store_length hstore).trans h.tempBuf, h.jsonStr, h.tmp_le, h.copied, h.rest⟩

end Loop

/-! ## §5. When a file is loaded. -/

section Load

variable {fopen : Str → Option Str} {malloc : Malloc} {tempBuf : TempBuf} {name file : Str}

theorem toInt_of_le {x : ℤ} (h : 0 ≤ x ∧ x ≤ intMax) : toInt x = x := by
  unfold toInt intMax at *
  rw [Int.bmod]
  omega

/-- The length is that of the file, or another one that differs by a multiple of 2^32. -/
theorem toInt_cases (length : ℕ) :
    toInt length ≤ intMax ∧ (toInt length = length ∨ toInt length + 2 ^ 32 ≤ length) := by
  unfold toInt intMax
  rw [Int.bmod]
  omega

/-- What has to happen for `cJSON_Parse` to be called. -/
theorem parse_cases (hname : name ≠ []) (hopen : fopen name = some file) {fuel : ℕ}
    {jsonStr : List Char}
    (h : untilParseJsonFile fopen malloc tempBuf fuel (some name) = .parse jsonStr) :
    toInt file.length ≠ intMax ∧ 0 ≤ toInt file.length
      ∧ ∃ block s, malloc.alloc (toSize (toInt file.length + 1)) = some block
        ∧ readLoop (toInt file.length) fuel ⟨tempBuf.cells, block, 0, file⟩ = .ended s
        ∧ store s.jsonStr (toInt file.length).toNat [nul] = some jsonStr := by
  obtain ⟨c, cs, rfl⟩ := List.exists_cons_of_ne_nil hname
  unfold untilParseJsonFile at h
  simp only [hopen] at h
  split at h
  · cases h
  · next hmax =>
      split at h
      · cases h
      · next block hblock =>
          split at h
          · cases h
          · cases h
          · next s hrun =>
              unfold finish at h
              split at h
              · cases h
              · next hneg =>
                  split at h
                  · cases h
                  · next str hstore =>
                      obtain rfl : str = jsonStr := Load.parse.inj h
                      exact ⟨hmax, by omega, block, s, hblock, hrun, hstore⟩

/-- A file whose length is an `int`, with memory for it. -/
theorem untilParseJsonFile_eq (hname : name ≠ []) (hopen : fopen name = some file)
    {block : List Char} (hint : file.length + 1 ≤ 2147483647)
    (hblock : malloc.alloc (file.length + 1) = some block) (fuel : ℕ) :
    untilParseJsonFile fopen malloc tempBuf fuel (some name)
      = match readLoop file.length fuel ⟨tempBuf.cells, block, 0, file⟩ with
        | .running => .running
        | .undefined => .undefined
        | .ended s => finish file.length s := by
  obtain ⟨c, cs, rfl⟩ := List.exists_cons_of_ne_nil hname
  have hlength : toInt file.length = file.length := toInt_of_le (by unfold intMax; omega)
  have hsize : toSize ((file.length : ℤ) + 1) = file.length + 1 := by
    unfold toSize
    omega
  have hmax : (file.length : ℤ) ≠ intMax := by
    unfold intMax
    omega
  unfold untilParseJsonFile
  simp only [hopen, hlength, if_neg hmax, hsize, hblock]

theorem finish_eq {length : ℕ} {s : ReadLoop} {jsonStr : List Char}
    (h : store s.jsonStr length [nul] = some jsonStr) : finish length s = .parse jsonStr := by
  unfold finish
  rw [if_neg (by omega), Int.toNat_natCast, h]

/-- A string that begins with its NUL is empty. -/
theorem readStr_store_nul {buf buf' : List Char} (h : store buf 0 [nul] = some buf') :
    readStr buf' 0 = some [] := by
  have hempty : store buf 0 ([] ++ [nul]) = some buf' := h
  exact (holds_store List.not_mem_nil hempty).readStr_eq

/-- A loadable file is loaded. -/
theorem Loadable.loads (h : Loadable malloc file) (hname : name ≠ [])
    (hopen : fopen name = some file) (hnul : nul ∉ file) :
    Loads fopen malloc tempBuf name file := by
  obtain ⟨block, hblock⟩ := Option.isSome_iff_exists.mp h.memory
  have hlength := malloc.length_eq _ _ hblock
  have hstart := reading_start tempBuf hlength file
  have hone := h.ne_one
  obtain ⟨s, hrun, hs, hcopied⟩ : ∃ s,
      readLoop file.length (file.length + 1) ⟨tempBuf.cells, block, 0, file⟩ = .ended s
        ∧ Reading (file.length + 1) file s ∧ s.jsonStr.take file.length = file := by
    rcases Nat.eq_zero_or_pos file.length with hzero | hpos
    · -- the file is empty, and `fgets` has no room for a NUL
      obtain rfl := List.length_eq_zero_iff.mp hzero
      exact ⟨_, rfl, hstart, rfl⟩
    · have hfits : Fits ((file.length : ℤ) - 1).toNat file := by
        rcases h.lines with hshort | hlines
        · exact Or.inl (by omega)
        · exact Or.inr hlines
      have hspec := readLoop_spec (n := file.length) hnul (by omega) (Nat.le_succ _)
        (file.length + 1) _ (Nat.lt_succ_self _) hstart
      obtain ⟨-, s, hrun, hs, hend⟩ := hspec.resolve_right fun hnone => hnone.1 hfits
      have htmp : file.length ≤ s.tmp := by
        have hrest := hs.rest
        rw [hend] at hrest
        exact List.drop_eq_nil_iff.mp hrest.symm
      have hcopied := congrArg (List.take file.length) hs.copied
      rw [List.take_take, List.take_take, Nat.min_eq_left htmp, List.take_length] at hcopied
      exact ⟨s, hrun, hs, hcopied⟩
  have hroom : file.length + [nul].length ≤ s.jsonStr.length := by
    rw [hs.jsonStr, List.length_singleton]
  obtain ⟨jsonStr, hstore⟩ : ∃ jsonStr, store s.jsonStr file.length [nul] = some jsonStr :=
    ⟨_, store_fits hroom⟩
  have htake := store_take hstore
  rw [hcopied] at htake
  refine ⟨file.length + 1, jsonStr, ?_, (holds_of_take hnul htake).readStr_eq⟩
  rw [untilParseJsonFile_eq hname hopen h.int hblock, hrun]
  exact finish_eq hstore

/-- **When a file is loaded**: the memory can be had, and the sizes fit. -/
theorem loads_iff (hname : name ≠ []) (hopen : fopen name = some file) (hnul : nul ∉ file) :
    Loads fopen malloc tempBuf name file ↔ Loadable malloc file := by
  refine ⟨fun hloads => ?_, fun h => h.loads hname hopen hnul⟩
  obtain ⟨fuel, jsonStr, hparse, hread⟩ := hloads
  obtain ⟨hmax, hnonneg, block, s, hblock, hrun, hstore⟩ := parse_cases hname hopen hparse
  obtain ⟨hle, hcases⟩ := toInt_cases file.length
  have hlength := malloc.length_eq _ _ hblock
  have hstart := reading_start tempBuf hlength file
  have hsize : toSize (toInt file.length + 1) = (toInt file.length).toNat + 1 := by
    unfold toSize
    unfold intMax at hle
    omega
  unfold intMax at hmax hle
  rcases lt_trichotomy (toInt file.length) 1 with hlt | hone | hgt
  · -- the loop has ended at once, and the string is empty
    have hzero : toInt file.length = 0 := by omega
    rw [hzero] at hstore hsize hblock
    obtain rfl : [] = file := Option.some.inj ((readStr_store_nul hstore).symm.trans hread)
    exact ⟨Option.isSome_iff_exists.mpr ⟨block, hblock⟩, by decide, by decide,
      Or.inl (by decide)⟩
  · -- the loop does not end
    rw [hone, readLoop_one fuel hstart] at hrun
    cases hrun
  · obtain ⟨hs, hend, hfits⟩ := readLoop_ended hnul (by omega) fuel _ hstart hrun
    -- all of the file has been stored in a block of the length that was asked for
    have hwhole : file.length ≤ toSize (toInt file.length + 1) := by
      have hrest := hs.rest
      rw [hend] at hrest
      exact (List.drop_eq_nil_iff.mp hrest.symm).trans hs.tmp_le
    -- so the `int` is the length itself
    have heq : toInt file.length = file.length := by omega
    rw [heq, Int.toNat_natCast] at hsize
    rw [heq, hsize] at hblock
    refine ⟨Option.isSome_iff_exists.mpr ⟨block, hblock⟩, by omega, by omega, ?_⟩
    rcases hfits with hshort | hlines
    · exact Or.inl (by omega)
    · exact Or.inr hlines

/-- **A file of one byte**: the loop does not end. -/
theorem oneByte_running (hname : name ≠ []) (hopen : fopen name = some file)
    (hlength : file.length = 1) (hmemory : (malloc.alloc (file.length + 1)).isSome) (fuel : ℕ) :
    untilParseJsonFile fopen malloc tempBuf fuel (some name) = .running := by
  obtain ⟨block, hblock⟩ := Option.isSome_iff_exists.mp hmemory
  have hstart := reading_start tempBuf (malloc.length_eq _ _ hblock) file
  rw [untilParseJsonFile_eq hname hopen (by omega) hblock, hlength]
  have hrun := readLoop_one fuel hstart
  rw [Nat.cast_one, hrun]

/-- **A line of 255 characters or more**, in a file that is longer than `temp_buf`: the
buffer overflows. -/
theorem longLine_undefined (hname : name ≠ []) (hopen : fopen name = some file)
    (hnul : nul ∉ file) (hint : file.length + 1 ≤ 2147483647) (hlong : 255 < file.length)
    (hline : ¬ ∀ line ∈ linesOf file, line.length ≤ 254)
    (hmemory : (malloc.alloc (file.length + 1)).isSome) :
    untilParseJsonFile fopen malloc tempBuf (file.length + 1) (some name) = .undefined := by
  obtain ⟨block, hblock⟩ := Option.isSome_iff_exists.mp hmemory
  have hstart := reading_start tempBuf (malloc.length_eq _ _ hblock) file
  have hfits : ¬ Fits ((file.length : ℤ) - 1).toNat file := by
    intro hfits
    rcases hfits with hshort | hlines
    · omega
    · exact hline hlines
  have hspec := readLoop_spec (n := file.length) hnul (by omega) (Nat.le_succ _)
    (file.length + 1) _ (Nat.lt_succ_self _) hstart
  obtain ⟨-, hrun⟩ := hspec.resolve_left fun hended => hfits hended.1
  rw [untilParseJsonFile_eq hname hopen hint hblock, hrun]

end Load

/-- Memory that never runs out. -/
def unlimited : Malloc where
  alloc size := some (List.replicate size nul)
  length_eq := by
    intro size cells h
    rw [← Option.some.inj h, List.length_replicate]

/-- A line buffer of zeros. -/
def zeroBuf : TempBuf := ⟨List.replicate 255 nul, List.length_replicate⟩

/-- One file, under every name. -/
def oneFile (file : Str) (_name : Str) : Option Str := some file

theorem oneFile_eq (file name : Str) : oneFile file name = some file := rfl

/-- An array on two lines. -/
def twoLines : Str := ['[', '1', ',', '\n', '2', ']', '\n']

theorem twoLines_loads : Loads (oneFile twoLines) unlimited zeroBuf ['f'] twoLines := by
  apply (loads_iff (by decide) (oneFile_eq twoLines ['f']) (by decide)).mpr
  exact ⟨rfl, by decide, by decide, Or.inl (by decide)⟩

/-- A number of one digit. -/
theorem oneDigit_not_loads :
    ¬ ∀ (fopen : Str → Option Str) (malloc : Malloc) (tempBuf : TempBuf) (name file : Str),
      name ≠ [] → fopen name = some file → nul ∉ file →
      (malloc.alloc (file.length + 1)).isSome → Loads fopen malloc tempBuf name file := by
  intro hclaim
  have hopen := oneFile_eq ['7'] ['f']
  obtain ⟨fuel, jsonStr, hparse, -⟩ :=
    hclaim (oneFile ['7']) unlimited zeroBuf ['f'] ['7'] (by decide) hopen (by decide) rfl
  rw [oneByte_running (by decide) hopen rfl rfl] at hparse
  cases hparse

end Meili.Conf.JsonFile
