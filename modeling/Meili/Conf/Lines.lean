/-
  Meili.Conf.Lines — the config file, line by line.

  `conf_parse_file` (`src/lib/conf/meili_conf.c`) reads with `fgets` into a buffer of
  `CONFIG_FILE_LINE_LEN` characters, so a longer line comes in pieces and each piece is
  taken for a line.

    §1  the lines of a text, and the pieces that `fgets` makes of them;
    §2  `lineEntry`: what a line says;
    §3  what `conf_parse_file` makes of one piece;
    §4  pieces and lines (`flatMap_lineArgs_iff`);
    §5  `translates_iff`: when the arguments are those of the lines;
    §6  long lines.
-/
import Mathlib.Data.List.Basic
import Meili.Conf.Options
import Meili.Lib.CString

namespace Meili.Conf

open Meili.Lib.CString

/-! ## §1. Lines and pieces. -/

/-- The lines of a text, each with its newline, with `line` read of the first one. -/
def linesFrom (line : Str) : Str → List Str
  | [] => if line = [] then [] else [line]
  | c :: rest =>
      if c = '\n' then (line ++ [c]) :: linesFrom [] rest else linesFrom (line ++ [c]) rest

/-- The lines of a text. -/
def linesOf (content : Str) : List Str := linesFrom [] content

/-- A newline is at the end of each line but perhaps the last one. -/
inductive Terminated : List Str → Prop where
  | nil : Terminated []
  | last (line : Str) : '\n' ∉ line → Terminated [line]
  | cons (body : Str) (lines : List Str) : '\n' ∉ body → Terminated lines →
      Terminated ((body ++ ['\n']) :: lines)

theorem linesFrom_terminated {line : Str} (h : '\n' ∉ line) (content : Str) :
    Terminated (linesFrom line content) := by
  induction content generalizing line with
  | nil =>
      unfold linesFrom
      split
      · exact .nil
      · exact .last line h
  | cons c rest ih =>
      unfold linesFrom
      by_cases hc : c = '\n'
      · rw [if_pos hc, hc]
        exact .cons line _ h (ih List.not_mem_nil)
      · rw [if_neg hc]
        refine ih ?_
        rw [List.mem_append, List.mem_singleton, not_or]
        exact ⟨h, fun heq => hc heq.symm⟩

theorem linesFrom_flatten (line content : Str) :
    (linesFrom line content).flatten = line ++ content := by
  induction content generalizing line with
  | nil =>
      unfold linesFrom
      split
      · simp [*]
      · simp
  | cons c rest ih =>
      unfold linesFrom
      split
      · rw [List.flatten_cons, ih, List.nil_append, List.append_assoc, List.singleton_append]
      · rw [ih, List.append_assoc, List.singleton_append]

theorem Terminated.take {lines : List Str} (h : Terminated lines) (n : ℕ) :
    Terminated (lines.take n) := by
  induction h generalizing n with
  | nil => simpa using Terminated.nil
  | last line hline =>
      cases n with
      | zero => exact .nil
      | succ n => simpa using Terminated.last line hline
  | cons body lines hbody _ ih =>
      cases n with
      | zero => exact .nil
      | succ n => exact .cons body _ hbody (ih n)

theorem fgets_flatten (line content : Str) : (fgets line content).flatten = line ++ content := by
  induction content generalizing line with
  | nil =>
      unfold fgets
      split
      · simp [*]
      · simp
  | cons c rest ih =>
      unfold fgets
      split
      · rw [List.flatten_cons, ih, List.nil_append, List.append_assoc, List.singleton_append]
      · rw [ih, List.append_assoc, List.singleton_append]

theorem ne_nil_of_mem_fgets {line content piece : Str} (h : piece ∈ fgets line content) :
    piece ≠ [] := by
  induction content generalizing line with
  | nil =>
      unfold fgets at h
      split at h
      · cases h
      · rename_i hline
        rw [List.mem_singleton] at h
        rwa [h]
  | cons c rest ih =>
      unfold fgets at h
      split at h
      · rcases List.mem_cons.mp h with rfl | h
        · simp
        · exact ih h
      · exact ih h

theorem fgets_newline_append {body : Str} (h : '\n' ∉ body) (line rest : Str) :
    fgets line (body ++ '\n' :: rest) = fgets line (body ++ ['\n']) ++ fgets [] rest := by
  induction body generalizing line with
  | nil => simp [fgets]
  | cons c body ih =>
      rw [List.mem_cons, not_or] at h
      rw [List.cons_append, List.cons_append, fgets, fgets]
      split
      · rw [ih h.2, List.cons_append]
      · rw [ih h.2]

/-- `fgets` starts afresh at each line. -/
theorem Terminated.fgets_flatten {lines : List Str} (h : Terminated lines) :
    fgets [] lines.flatten = lines.flatMap (fgets []) := by
  induction h with
  | nil => rfl
  | last line _ => simp
  | cons body lines hbody _ ih =>
      rw [List.flatten_cons, List.append_assoc, List.singleton_append,
        fgets_newline_append hbody, ih, List.flatMap_cons]

theorem exists_linesFrom_length_le {line : Str} (h : line ≠ []) (content : Str) :
    ∃ l ∈ linesFrom line content, line.length ≤ l.length := by
  induction content generalizing line with
  | nil =>
      unfold linesFrom
      rw [if_neg h]
      exact ⟨line, List.mem_singleton_self line, le_rfl⟩
  | cons c rest ih =>
      unfold linesFrom
      split
      · exact ⟨line ++ [c], List.mem_cons_self, by simp⟩
      · have hne : line ++ [c] ≠ [] := by simp
        obtain ⟨l, hmem, hlen⟩ := ih hne
        rw [List.length_append] at hlen
        exact ⟨l, hmem, by omega⟩

/-- **Lines that fit the buffer**: the pieces are the lines. -/
theorem fgets_eq_linesFrom {line content : Str}
    (h : ∀ l ∈ linesFrom line content, l.length < configFileLineLen) :
    fgets line content = linesFrom line content := by
  induction content generalizing line with
  | nil => rfl
  | cons c rest ih =>
      rw [fgets]
      unfold linesFrom at h ⊢
      by_cases hc : c = '\n'
      · rw [if_pos hc] at h
        rw [if_pos (Or.inl hc), if_pos hc, ih fun l hl => h l (List.mem_cons_of_mem _ hl)]
      rw [if_neg hc] at h
      rw [if_neg hc]
      by_cases hfull : line.length + 2 = configFileLineLen
      · -- the line is as long as the buffer allows, so nothing follows
        rw [if_pos (Or.inr hfull)]
        cases rest with
        | nil => simp [fgets, linesFrom]
        | cons d rest =>
            exfalso
            unfold linesFrom at h
            split at h
            · have hlong := h _ List.mem_cons_self
              simp only [List.length_append, List.length_singleton] at hlong
              omega
            · have hne : line ++ [c] ++ [d] ≠ [] := by simp
              obtain ⟨l, hmem, hlen⟩ := exists_linesFrom_length_le hne rest
              have hlong := h l hmem
              simp only [List.length_append, List.length_singleton] at hlen
              omega
      · rw [if_neg (by simp [hc, hfull])]
        exact ih h

/-! ## §2. What a line says. -/

/-- The text before the first colon. -/
def entryOpt (line : Str) : Str := utilTrimWhitespace (line.takeWhile (· ≠ ':'))

/-- The part behind the first colon, if there is any and it does not start with a colon. -/
def entryArg (line : Str) : Option Str :=
  match line.dropWhile (· ≠ ':') with
  | _ :: c :: rest => if c = ':' then none else some (utilTrimWhitespace (c :: rest))
  | _ => none

/-- The option that a line stands for, with its argument. -/
def lineEntry (line : Str) : List Str :=
  if entryOpt line = [] ∨ (entryOpt line).head? = some '#' then []
  else optFormatted (entryOpt line) :: (entryArg line).toList

/-- A colon stands right behind the first one. -/
def doubleColon (line : Str) : Bool :=
  match line.dropWhile (· ≠ ':') with
  | _ :: c :: _ => c == ':'
  | _ => false

/-- White space only. -/
def Blank (line : Str) : Prop := ∀ c ∈ line, isspace c = true

/-- A blank line, a comment, or a line without a text before the colon. -/
def Silent (line : Str) : Prop :=
  ∀ c, (line.dropWhile isspace).head? = some c → c = ':' ∨ c = '#'

theorem firstColon (line : Str) :
    ':' ∉ line ∨ ∃ opt rest, ':' ∉ opt ∧ line = opt ++ ':' :: rest := by
  obtain ⟨opt, hopt, hline⟩ := exists_prefix (· ≠ ':') line
  have hnot : ':' ∉ opt := fun h => by simpa using hopt ':' h
  rcases hline with rfl | ⟨c, rest, hc, rfl⟩
  · exact Or.inl hnot
  · obtain rfl : c = ':' := by simpa using hc
    exact Or.inr ⟨opt, rest, hnot, rfl⟩

theorem firstNonblank (line : Str) :
    Blank line ∨ ∃ gap c rest, Blank gap ∧ isspace c = false ∧ line = gap ++ c :: rest := by
  obtain ⟨gap, hgap, hline⟩ := exists_prefix isspace line
  rcases hline with rfl | ⟨c, rest, hc, rfl⟩
  · exact Or.inl hgap
  · exact Or.inr ⟨gap, c, rest, hgap, hc, rfl⟩

theorem Blank.colon {gap : Str} (h : Blank gap) : ∀ c ∈ gap, decide (c ≠ ':') = true := by
  intro c hc
  refine decide_eq_true ?_
  rintro rfl
  exact absurd (h ':' hc) (by decide)

theorem utilTrimWhitespace_blank_append {gap : Str} (h : Blank gap) (s : Str) :
    utilTrimWhitespace (gap ++ s) = utilTrimWhitespace s := by
  unfold utilTrimWhitespace
  rw [List.dropWhile_append_of_pos h]

theorem utilTrimWhitespace_blank {s : Str} (h : Blank s) : utilTrimWhitespace s = [] := by
  rw [← List.append_nil s, utilTrimWhitespace_blank_append h]
  rfl

theorem utilTrimWhitespace_cons {c : Char} (hc : isspace c = false) (s : Str) :
    ∃ s', utilTrimWhitespace (c :: s) = c :: s' := by
  have hne : ¬ isspace c = true := by simp [hc]
  unfold utilTrimWhitespace
  rw [List.dropWhile_cons_of_neg hne, List.reverse_cons, List.dropWhile_append,
    List.dropWhile_cons_of_neg hne]
  split
  · exact ⟨[], rfl⟩
  · exact ⟨(s.reverse.dropWhile isspace).reverse, by simp⟩

theorem entryOpt_blank_append {gap : Str} (h : Blank gap) (line : Str) :
    entryOpt (gap ++ line) = entryOpt line := by
  unfold entryOpt
  rw [List.takeWhile_append_of_pos h.colon, utilTrimWhitespace_blank_append h]

theorem entryOpt_cons {c : Char} (hc : isspace c = false) (hcolon : c ≠ ':') (rest : Str) :
    ∃ opt, entryOpt (c :: rest) = c :: opt := by
  unfold entryOpt
  rw [List.takeWhile_cons_of_pos (by simpa using hcolon)]
  exact utilTrimWhitespace_cons hc _

/-- White space at the front of a line says nothing. -/
theorem lineEntry_blank_append {gap : Str} (h : Blank gap) (line : Str) :
    lineEntry (gap ++ line) = lineEntry line := by
  unfold lineEntry entryArg
  rw [entryOpt_blank_append h, List.dropWhile_append_of_pos h.colon]

theorem silent_blank_append {gap : Str} (h : Blank gap) (line : Str) :
    Silent (gap ++ line) ↔ Silent line := by
  unfold Silent
  rw [List.dropWhile_append_of_pos h]

theorem silent_cons {c : Char} (hc : isspace c = false) (rest : Str) :
    Silent (c :: rest) ↔ c = ':' ∨ c = '#' := by
  unfold Silent
  rw [List.dropWhile_cons_of_neg (by simp [hc]), List.head?_cons]
  simp

theorem Blank.silent {line : Str} (h : Blank line) : Silent line := by
  intro c hc
  rw [List.dropWhile_eq_nil_iff.mpr h] at hc
  cases hc

/-- **The lines without an entry.** -/
theorem lineEntry_eq_nil_iff (line : Str) : lineEntry line = [] ↔ Silent line := by
  rcases firstNonblank line with hblank | ⟨gap, c, rest, hgap, hc, rfl⟩
  · have hopt : entryOpt line = [] := by
      have hgap := entryOpt_blank_append hblank []
      rwa [List.append_nil] at hgap
    exact iff_of_true (if_pos (Or.inl hopt)) hblank.silent
  rw [lineEntry_blank_append hgap, silent_blank_append hgap, silent_cons hc]
  by_cases hcolon : c = ':'
  · subst hcolon
    exact iff_of_true rfl (Or.inl rfl)
  obtain ⟨opt, hopt⟩ := entryOpt_cons hc hcolon rest
  unfold lineEntry
  rw [hopt]
  by_cases hhash : c = '#'
  · exact iff_of_true (if_pos (Or.inr (by rw [hhash]; rfl))) (Or.inr hhash)
  · rw [if_neg (by simp [hhash])]
    exact iff_of_false (List.cons_ne_nil _ _) (by simp [hcolon, hhash])

theorem lineEntry_length_le (line : Str) : (lineEntry line).length ≤ 2 := by
  unfold lineEntry
  split
  · exact Nat.zero_le _
  · cases entryArg line with
    | none => exact Nat.le_succ 1
    | some arg => exact le_rfl

theorem lineEntry_of_not_silent {line : Str} (h : ¬ Silent line) :
    lineEntry line = optFormatted (entryOpt line) :: (entryArg line).toList := by
  rw [← lineEntry_eq_nil_iff] at h
  unfold lineEntry at h ⊢
  split
  · rename_i hnone
    exact absurd (if_pos hnone) h
  · rfl

/-- What is behind the first nonblank character has no say. -/
theorem silent_append {piece : Str} (h : ¬ Blank piece) (rest : Str) :
    Silent (piece ++ rest) ↔ Silent piece := by
  rcases firstNonblank piece with hblank | ⟨gap, c, behind, hgap, hc, rfl⟩
  · exact absurd hblank h
  rw [List.append_assoc, silent_blank_append hgap, silent_blank_append hgap, List.cons_append,
    silent_cons hc, silent_cons hc]

theorem forall_ne_colon {opt : Str} (h : ':' ∉ opt) : ∀ c ∈ opt, decide (c ≠ ':') = true :=
  fun _ hc => decide_eq_true fun heq => h (heq ▸ hc)

theorem takeWhile_colon {opt : Str} (h : ':' ∉ opt) (rest : Str) :
    (opt ++ ':' :: rest).takeWhile (· ≠ ':') = opt := by
  rw [List.takeWhile_append_of_pos (forall_ne_colon h), List.takeWhile_cons_of_neg (by simp),
    List.append_nil]

theorem dropWhile_colon {opt : Str} (h : ':' ∉ opt) (rest : Str) :
    (opt ++ ':' :: rest).dropWhile (· ≠ ':') = ':' :: rest := by
  rw [List.dropWhile_append_of_pos (forall_ne_colon h), List.dropWhile_cons_of_neg (by simp)]

theorem doubleColon_eq_true_iff (line : Str) :
    doubleColon line = true ↔ ∃ opt rest, ':' ∉ opt ∧ line = opt ++ ':' :: ':' :: rest := by
  constructor
  · intro h
    rcases firstColon line with hnone | ⟨opt, rest, hopt, rfl⟩
    · unfold doubleColon at h
      rw [List.dropWhile_eq_nil_iff.mpr (forall_ne_colon hnone)] at h
      cases h
    · unfold doubleColon at h
      rw [dropWhile_colon hopt] at h
      cases rest with
      | nil => cases h
      | cons c rest => exact ⟨opt, rest, hopt, by rw [eq_of_beq (a := c) h]⟩
  · intro h
    obtain ⟨opt, rest, hopt, rfl⟩ := h
    unfold doubleColon
    rw [dropWhile_colon hopt]
    rfl

theorem doubleColon_append {piece : Str} (h : doubleColon piece = true) (rest : Str) :
    doubleColon (piece ++ rest) = true := by
  obtain ⟨opt, behind, hopt, rfl⟩ := (doubleColon_eq_true_iff piece).mp h
  refine (doubleColon_eq_true_iff _).mpr ⟨opt, behind ++ rest, hopt, ?_⟩
  rw [List.append_assoc, List.cons_append, List.cons_append]

theorem entryArg_of_doubleColon {line : Str} (h : doubleColon line = true) :
    entryArg line = none := by
  obtain ⟨opt, rest, hopt, rfl⟩ := (doubleColon_eq_true_iff line).mp h
  unfold entryArg
  rw [dropWhile_colon hopt]
  rfl

/-! ## §3. One piece. -/

/-- `rte_strsplit` for two fields splits at the first colon only.  What becomes of a second
field that starts with a colon is left open. -/
structure SplitsAtFirst (split : Str → Option (List Str)) : Prop where
  whole : ∀ s, s ≠ [] → ':' ∉ s → split s = some [s]
  last : ∀ opt, ':' ∉ opt → split (opt ++ [':']) = some [opt]
  both : ∀ opt c rest, ':' ∉ opt → c ≠ ':' →
    split (opt ++ ':' :: c :: rest) = some [opt, c :: rest]
  double : ∀ opt rest, ':' ∉ opt → ∃ arg, split (opt ++ ':' :: ':' :: rest) = some [opt, arg]

variable {env : Env}

/-- **A piece** is read as a line is, but for an argument that starts with a colon. -/
theorem SplitsAtFirst.split_eq (h : SplitsAtFirst env.rteStrsplit) {piece : Str}
    (hne : piece ≠ []) :
    ∃ fields, env.rteStrsplit piece = some (piece.takeWhile (· ≠ ':') :: fields)
      ∧ (doubleColon piece = false → fields.head?.map utilTrimWhitespace = entryArg piece)
      ∧ (doubleColon piece = true → ∃ arg, fields = [arg]) := by
  rcases firstColon piece with hnone | ⟨opt, rest, hopt, rfl⟩
  · have htake := List.takeWhile_eq_self_iff.mpr (forall_ne_colon hnone)
    have hdrop := List.dropWhile_eq_nil_iff.mpr (forall_ne_colon hnone)
    refine ⟨[], ?_, ?_, ?_⟩
    · rw [h.whole piece hne hnone, htake]
    · intro _
      unfold entryArg
      rw [hdrop]
      rfl
    · intro hdouble
      unfold doubleColon at hdouble
      rw [hdrop] at hdouble
      cases hdouble
  unfold entryArg doubleColon
  rw [takeWhile_colon hopt, dropWhile_colon hopt]
  rcases rest with - | ⟨c, rest⟩
  · exact ⟨[], h.last opt hopt, fun _ => rfl, nofun⟩
  by_cases hc : c = ':'
  · subst hc
    obtain ⟨arg, harg⟩ := h.double opt rest hopt
    exact ⟨[arg], harg, nofun, fun _ => ⟨arg, rfl⟩⟩
  · refine ⟨[c :: rest], h.both opt c rest hopt hc, fun _ => ?_, fun hdouble => ?_⟩
    · simp [hc]
    · exact absurd (eq_of_beq hdouble) hc

/-- The arguments that a line of the config file gives. -/
def lineArgs (env : Env) (conf : Str) : List Str :=
  match env.rteStrsplit (conf.takeWhile (· ≠ '\x00')) with
  | some (field :: fields) =>
      let opt := utilTrimWhitespace field
      if opt = [] ∨ opt.head? = some '#' then []
      else optFormatted opt :: (fields.head?.map utilTrimWhitespace).toList
  | _ => []

/-- What `fgets` can yield of a text. -/
def Readable (pieces : List Str) : Prop := ∀ piece ∈ pieces, piece ≠ [] ∧ nul ∉ piece

theorem takeWhile_nul {piece : Str} (h : nul ∉ piece) : piece.takeWhile (· ≠ '\x00') = piece :=
  List.takeWhile_eq_self_iff.mpr fun c hc => decide_eq_true fun heq : c = nul => h (heq ▸ hc)

theorem lineArgs_eq {piece : Str} (hnul : nul ∉ piece) {fields : List Str}
    (hsplit : env.rteStrsplit piece = some (piece.takeWhile (· ≠ ':') :: fields)) :
    lineArgs env piece = if entryOpt piece = [] ∨ (entryOpt piece).head? = some '#' then []
      else optFormatted (entryOpt piece) :: (fields.head?.map utilTrimWhitespace).toList := by
  unfold lineArgs
  rw [takeWhile_nul hnul, hsplit]
  rfl

theorem lineArgs_of_silent (h : SplitsAtFirst env.rteStrsplit) {piece : Str} (hne : piece ≠ [])
    (hnul : nul ∉ piece) (hsilent : Silent piece) : lineArgs env piece = [] := by
  obtain ⟨fields, hsplit, -⟩ := h.split_eq hne
  rw [lineArgs_eq hnul hsplit]
  rw [← lineEntry_eq_nil_iff] at hsilent
  unfold lineEntry at hsilent
  split at hsilent
  · rename_i hnone
    exact if_pos hnone
  · cases hsilent

theorem lineArgs_of_not_silent (h : SplitsAtFirst env.rteStrsplit) {piece : Str} (hne : piece ≠ [])
    (hnul : nul ∉ piece) (hentry : ¬ Silent piece) :
    (doubleColon piece = false → lineArgs env piece = lineEntry piece)
    ∧ (doubleColon piece = true →
        ∃ arg, lineArgs env piece = [optFormatted (entryOpt piece), arg]) := by
  obtain ⟨fields, hsplit, hsingle, hdouble⟩ := h.split_eq hne
  have hopt : ¬ (entryOpt piece = [] ∨ (entryOpt piece).head? = some '#') := by
    intro hnone
    exact hentry ((lineEntry_eq_nil_iff piece).mp (if_pos hnone))
  rw [lineArgs_eq hnul hsplit, if_neg hopt, lineEntry_of_not_silent hentry]
  constructor
  · intro hcolon
    rw [hsingle hcolon]
  · intro hcolon
    obtain ⟨arg, rfl⟩ := hdouble hcolon
    exact ⟨utilTrimWhitespace arg, rfl⟩

theorem lineArgs_length_le (env : Env) (piece : Str) : (lineArgs env piece).length ≤ 2 := by
  unfold lineArgs
  split
  · dsimp only
    split
    · exact Nat.zero_le _
    · rename_i fields _ _
      cases fields with
      | nil => exact Nat.le_succ 1
      | cons arg fields => exact le_rfl
  · exact Nat.zero_le _

theorem confFileArgs_cons (h : SplitsAtFirst env.rteStrsplit) {piece : Str} (hne : piece ≠ [])
    (hnul : nul ∉ piece) (confArgv : List Str) (pieces : List Str) :
    confFileArgs env confArgv (piece :: pieces)
      = if lineArgs env piece = [] then confFileArgs env confArgv pieces
        else if configFileMaxArgs - 2 ≤ confArgv.length + 1 then .ok confArgv
        else confFileArgs env (confArgv ++ lineArgs env piece) pieces := by
  obtain ⟨fields, hsplit, -⟩ := h.split_eq hne
  have hargs := lineArgs_eq hnul hsplit
  rw [confFileArgs, takeWhile_nul hnul, hsplit]
  dsimp only
  by_cases hnone : entryOpt piece = [] ∨ (entryOpt piece).head? = some '#'
  · rw [if_pos hnone] at hargs
    rw [if_pos hargs]
    exact if_pos hnone
  · rw [if_neg hnone] at hargs
    rw [hargs, if_neg (List.cons_ne_nil _ _)]
    exact if_neg hnone

/-- **The arguments of the pieces**, as long as they have room. -/
theorem confFileArgs_eq_iff (h : SplitsAtFirst env.rteStrsplit) {pieces : List Str}
    (hpieces : Readable pieces) {argv : List Str} (hroom : argv.length ≤ 96) (confArgv : List Str) :
    confFileArgs env confArgv pieces = .ok argv
      ↔ confArgv ++ pieces.flatMap (lineArgs env) = argv := by
  induction pieces generalizing confArgv with
  | nil => rw [confFileArgs, Except.ok.injEq, List.flatMap_nil, List.append_nil]
  | cons piece pieces ih =>
      obtain ⟨⟨hne, hnul⟩, hrest⟩ := List.forall_mem_cons.mp hpieces
      rw [confFileArgs_cons h hne hnul, List.flatMap_cons]
      by_cases hnil : lineArgs env piece = []
      · rw [if_pos hnil, ih hrest, hnil, List.nil_append]
      rw [if_neg hnil]
      by_cases hfull : configFileMaxArgs - 2 ≤ confArgv.length + 1
      · rw [if_pos hfull, Except.ok.injEq]
        have hlong : 97 ≤ confArgv.length := by
          unfold configFileMaxArgs at hfull
          omega
        refine iff_of_false ?_ ?_
        · rintro rfl
          omega
        · rintro rfl
          rw [List.length_append] at hroom
          omega
      · rw [if_neg hfull, ih hrest, List.append_assoc]

/-- No argument is stored behind the end of `conf_argv`. -/
theorem confFileArgs_room (h : SplitsAtFirst env.rteStrsplit) {pieces : List Str}
    (hpieces : Readable pieces) {confArgv argv : List Str}
    (hroom : confArgv.length + 1 < configFileMaxArgs)
    (hargv : confFileArgs env confArgv pieces = .ok argv) :
    argv.length + 1 < configFileMaxArgs := by
  induction pieces generalizing confArgv with
  | nil =>
      cases hargv
      exact hroom
  | cons piece pieces ih =>
      obtain ⟨⟨hne, hnul⟩, hrest⟩ := List.forall_mem_cons.mp hpieces
      rw [confFileArgs_cons h hne hnul] at hargv
      split at hargv
      · exact ih hrest hroom hargv
      split at hargv
      · cases hargv
        exact hroom
      · rename_i hfull
        refine ih hrest ?_ hargv
        have hlen := lineArgs_length_le env piece
        rw [List.length_append]
        omega

/-! ## §4. Pieces and lines. -/

/-- The line is the same in pieces. -/
def ReadsInPieces (line : Str) : Prop :=
  (∀ piece ∈ fgets [] line, ¬ Silent piece → doubleColon piece = false)
  ∧ (fgets [] line).flatMap lineEntry = lineEntry line

theorem lineArgs_eq_lineEntry (h : SplitsAtFirst env.rteStrsplit) {piece : Str} (hne : piece ≠ [])
    (hnul : nul ∉ piece) (hcolon : ¬ Silent piece → doubleColon piece = false) :
    lineArgs env piece = lineEntry piece := by
  by_cases hsilent : Silent piece
  · rw [lineArgs_of_silent h hne hnul hsilent, (lineEntry_eq_nil_iff piece).mpr hsilent]
  · exact (lineArgs_of_not_silent h hne hnul hsilent).1 (hcolon hsilent)

theorem lineArgs_ne_nil (h : SplitsAtFirst env.rteStrsplit) {piece : Str} (hne : piece ≠ [])
    (hnul : nul ∉ piece) (hentry : ¬ Silent piece) : lineArgs env piece ≠ [] := by
  obtain ⟨hsingle, hdouble⟩ := lineArgs_of_not_silent h hne hnul hentry
  cases hcolon : doubleColon piece with
  | false =>
      rw [hsingle hcolon, lineEntry_of_not_silent hentry]
      exact List.cons_ne_nil _ _
  | true =>
      obtain ⟨arg, harg⟩ := hdouble hcolon
      rw [harg]
      exact List.cons_ne_nil _ _

/-- If the pieces say what the line says, no argument of a piece starts with a colon: it would
be the line's, and the line has none. -/
theorem singleColon_of_eq (h : SplitsAtFirst env.rteStrsplit) {pieces : List Str}
    (hpieces : Readable pieces)
    (heq : pieces.flatMap (lineArgs env) = lineEntry pieces.flatten) :
    ∀ piece ∈ pieces, ¬ Silent piece → doubleColon piece = false := by
  induction pieces with
  | nil => simp
  | cons piece pieces ih =>
      obtain ⟨⟨hne, hnul⟩, hrest⟩ := List.forall_mem_cons.mp hpieces
      rw [List.flatMap_cons, List.flatten_cons] at heq
      rw [List.forall_mem_cons]
      by_cases hsilent : Silent piece
      · refine ⟨fun hentry => absurd hsilent hentry, ?_⟩
        rw [lineArgs_of_silent h hne hnul hsilent, List.nil_append] at heq
        by_cases hblank : Blank piece
        · -- the line starts behind this piece
          rw [lineEntry_blank_append hblank] at heq
          exact ih hrest heq
        · -- the line says nothing, and so do the other pieces
          rw [(lineEntry_eq_nil_iff _).mpr ((silent_append hblank _).mpr hsilent),
            List.flatMap_eq_nil_iff] at heq
          intro other hother hentry
          obtain ⟨hne', hnul'⟩ := hrest other hother
          exact absurd (heq other hother) (lineArgs_ne_nil h hne' hnul' hentry)
      · have hlen := congrArg List.length heq
        rw [List.length_append] at hlen
        constructor
        · -- the line has no argument either
          intro _
          by_contra hcolon
          rw [Bool.not_eq_false] at hcolon
          obtain ⟨arg, harg⟩ := (lineArgs_of_not_silent h hne hnul hsilent).2 hcolon
          have hline := entryArg_of_doubleColon (doubleColon_append hcolon pieces.flatten)
          have hentry : ¬ Silent (piece ++ pieces.flatten) := by
            rwa [silent_append fun hblank => hsilent hblank.silent]
          rw [harg, lineEntry_of_not_silent hentry, hline] at hlen
          simp only [List.length_cons, List.length_nil, Option.toList_none] at hlen
          omega
        · -- there would be three arguments
          intro other hother hentry
          by_contra hcolon
          rw [Bool.not_eq_false] at hcolon
          obtain ⟨hne', hnul'⟩ := hrest other hother
          obtain ⟨arg, harg⟩ := (lineArgs_of_not_silent h hne' hnul' hentry).2 hcolon
          have hfirst := List.length_pos_iff.mpr (lineArgs_ne_nil h hne hnul hsilent)
          have hmore : (lineArgs env other).length ≤ (pieces.flatMap (lineArgs env)).length := by
            rw [List.flatMap_def]
            exact (List.sublist_flatten_of_mem (List.mem_map_of_mem hother)).length_le
          have hle := lineEntry_length_le (piece ++ pieces.flatten)
          rw [harg] at hmore
          simp only [List.length_cons, List.length_nil] at hmore
          omega

/-- **The arguments of the pieces** are those of the line exactly if no argument of a piece
starts with a colon and the pieces say together what the line says. -/
theorem flatMap_lineArgs_iff (h : SplitsAtFirst env.rteStrsplit) {pieces : List Str}
    (hpieces : Readable pieces) :
    pieces.flatMap (lineArgs env) = lineEntry pieces.flatten
      ↔ (∀ piece ∈ pieces, ¬ Silent piece → doubleColon piece = false)
        ∧ pieces.flatMap lineEntry = lineEntry pieces.flatten := by
  have hsame : (∀ piece ∈ pieces, ¬ Silent piece → doubleColon piece = false) →
      pieces.flatMap (lineArgs env) = pieces.flatMap lineEntry := by
    intro hcolon
    apply List.flatMap_congr
    intro piece hmem
    exact lineArgs_eq_lineEntry h (hpieces piece hmem).1 (hpieces piece hmem).2 (hcolon piece hmem)
  constructor
  · intro heq
    have hcolon := singleColon_of_eq h hpieces heq
    exact ⟨hcolon, (hsame hcolon).symm.trans heq⟩
  · intro h
    obtain ⟨hcolon, heq⟩ := h
    exact (hsame hcolon).trans heq

/-! ## §5. The whole file. -/

/-- The lines that stand for an option. -/
def entries (content : Str) : List Str := (linesOf content).filter fun line => lineEntry line ≠ []

/-- The arguments are those of the lines, at the end of each line, and `conf_argv` has room
for them. -/
structure Translates (env : Env) (content : Str) : Prop where
  lines : ∀ n, confFileArgs env [] (fgets [] ((linesOf content).take n).flatten)
    = .ok (((linesOf content).take n).flatMap lineEntry)
  room : ∀ confArgv, confFileArgs env [] (fgets [] content) = .ok confArgv →
    confArgv.length + 1 ≤ configFileMaxArgs

theorem readable_fgets {content : Str} (h : nul ∉ content) : Readable (fgets [] content) := by
  intro piece hmem
  refine ⟨ne_nil_of_mem_fgets hmem, fun hnul => h ?_⟩
  have hflatten := fgets_flatten [] content
  rw [List.nil_append] at hflatten
  rw [← hflatten]
  exact List.mem_flatten_of_mem hmem hnul

theorem flatMap_lineEntry_length_le (lines : List Str) :
    (lines.flatMap lineEntry).length
      ≤ 2 * (lines.filter fun line => lineEntry line ≠ []).length := by
  induction lines with
  | nil => exact le_rfl
  | cons line lines ih =>
      rw [List.flatMap_cons, List.length_append]
      by_cases hnil : lineEntry line = []
      · rw [List.filter_cons_of_neg (by simpa using hnil), hnil]
        simpa using ih
      · rw [List.filter_cons_of_pos (by simpa using hnil), List.length_cons]
        have hline := lineEntry_length_le line
        omega

/-- Two lists of arguments, given line by line, are the same at the end of each line exactly if
they are the same for each line. -/
theorem flatMap_take_eq_iff {α β : Type} (f g : α → List β) (l : List α) :
    (∀ n, (l.take n).flatMap f = (l.take n).flatMap g) ↔ ∀ a ∈ l, f a = g a := by
  constructor
  · intro h
    induction l with
    | nil => simp
    | cons a l ih =>
        have hfirst : f a = g a := by simpa using h 1
        refine List.forall_mem_cons.mpr ⟨hfirst, ih fun n => ?_⟩
        have hnext := h (n + 1)
        rwa [List.take_succ_cons, List.flatMap_cons, List.flatMap_cons, hfirst,
          List.append_cancel_left_eq] at hnext
  · intro h n
    exact List.flatMap_congr fun a ha => h a (List.mem_of_mem_take ha)

theorem readsInPieces_iff (hsplit : SplitsAtFirst env.rteStrsplit) {line : Str}
    (hnul : nul ∉ line) :
    (fgets [] line).flatMap (lineArgs env) = lineEntry line ↔ ReadsInPieces line := by
  have hline := flatMap_lineArgs_iff hsplit (readable_fgets hnul)
  rwa [fgets_flatten, List.nil_append] at hline

/-- **When a config file is translated line by line**: each line is the same in pieces. -/
theorem translates_iff (hsplit : SplitsAtFirst env.rteStrsplit) {content : Str}
    (hnul : nul ∉ content) (hentries : (entries content).length ≤ 48) :
    Translates env content ↔ ∀ line ∈ linesOf content, ReadsInPieces line := by
  have hcontent : (linesOf content).flatten = content := linesFrom_flatten [] content
  have hnulLine : ∀ line ∈ linesOf content, nul ∉ line := fun line hline hmem =>
    hnul (hcontent ▸ List.mem_flatten_of_mem hline hmem)
  have hinitial : ∀ n, confFileArgs env [] (fgets [] ((linesOf content).take n).flatten)
        = .ok (((linesOf content).take n).flatMap lineEntry)
      ↔ ((linesOf content).take n).flatMap (fun line => (fgets [] line).flatMap (lineArgs env))
        = ((linesOf content).take n).flatMap lineEntry := by
    intro n
    have hnulTake : nul ∉ ((linesOf content).take n).flatten := by
      intro hmem
      obtain ⟨line, hline, hmem⟩ := List.mem_flatten.mp hmem
      exact hnulLine line (List.mem_of_mem_take hline) hmem
    have hroom : (((linesOf content).take n).flatMap lineEntry).length ≤ 96 := by
      have htwo := flatMap_lineEntry_length_le ((linesOf content).take n)
      have htake := (((linesOf content).take_sublist n).filter
        fun line => lineEntry line ≠ []).length_le
      unfold entries at hentries
      omega
    have hpieces := ((linesFrom_terminated List.not_mem_nil content).take n).fgets_flatten
    rw [confFileArgs_eq_iff hsplit (readable_fgets hnulTake) hroom, List.nil_append,
      ← List.flatMap_assoc]
    exact Eq.congr_left (congrArg _ hpieces)
  have hlines : (∀ n, confFileArgs env [] (fgets [] ((linesOf content).take n).flatten)
        = .ok (((linesOf content).take n).flatMap lineEntry))
      ↔ ∀ line ∈ linesOf content, ReadsInPieces line := by
    rw [forall_congr' hinitial, flatMap_take_eq_iff]
    exact forall₂_congr fun line hline => readsInPieces_iff hsplit (hnulLine line hline)
  constructor
  · exact fun h => hlines.mp h.lines
  · exact fun h => ⟨hlines.mpr h, fun confArgv hargv =>
      (confFileArgs_room hsplit (readable_fgets hnul) (by decide) hargv).le⟩

/-! ## §6. Long lines. -/

/-- A full buffer. -/
theorem fgets_full {piece : Str} (hne : piece ≠ []) (h : '\n' ∉ piece) {line : Str}
    (hlen : line.length + piece.length + 1 = configFileLineLen) (rest : Str) :
    fgets line (piece ++ rest) = (line ++ piece) :: fgets [] rest := by
  induction piece generalizing line with
  | nil => exact absurd rfl hne
  | cons c piece ih =>
      rw [List.mem_cons, not_or] at h
      rw [List.length_cons] at hlen
      rw [List.cons_append, fgets]
      rcases List.eq_nil_or_concat piece with rfl | ⟨front, d, hpiece⟩
      · have hfull : line.length + 2 = configFileLineLen := hlen
        rw [if_pos (Or.inr hfull)]
        rfl
      · have hpos : 0 < piece.length := by rw [hpiece]; simp
        rw [if_neg ?_, ih (List.length_pos_iff.mp hpos) h.2 ?_, List.append_assoc,
          List.singleton_append]
        · rw [List.length_append, List.length_singleton]
          omega
        · intro h
          rcases h with hc | hfull
          · exact h.1 hc.symm
          · omega

/-- A line that fits the buffer. -/
theorem fgets_short {body : Str} (h : '\n' ∉ body) {line : Str}
    (hlen : line.length + body.length + 2 ≤ configFileLineLen) :
    fgets line (body ++ ['\n']) = [line ++ (body ++ ['\n'])] := by
  induction body generalizing line with
  | nil => simp [fgets]
  | cons c body ih =>
      rw [List.mem_cons, not_or] at h
      rw [List.length_cons] at hlen
      rw [List.cons_append, fgets, if_neg ?_, ih h.2 ?_, List.append_assoc, List.singleton_append]
      · rw [List.length_append, List.length_singleton]
        omega
      · intro h
        rcases h with hc | hfull
        · exact h.1 hc.symm
        · omega

/-- **A line of at most 199 characters**, with its newline. -/
theorem readsInPieces_short {body : Str} (h : '\n' ∉ body)
    (hlen : body.length + 2 ≤ configFileLineLen) :
    ReadsInPieces (body ++ ['\n'])
      ↔ (¬ Silent (body ++ ['\n']) → doubleColon (body ++ ['\n']) = false) := by
  unfold ReadsInPieces
  rw [fgets_short h (by simpa using hlen)]
  simp

/-- **A longer line without an entry**: no piece has one. -/
theorem readsInPieces_comment {piece rest : Str} (h : '\n' ∉ piece)
    (hlen : piece.length + 1 = configFileLineLen) (hsilent : Silent piece)
    (hblank : ¬ Blank piece) :
    ReadsInPieces (piece ++ rest) ↔ ∀ other ∈ fgets [] rest, Silent other := by
  have hne : piece ≠ [] := by
    rintro rfl
    exact hblank (by simp [Blank])
  have hline : lineEntry (piece ++ rest) = [] :=
    (lineEntry_eq_nil_iff _).mpr ((silent_append hblank rest).mpr hsilent)
  unfold ReadsInPieces
  rw [fgets_full hne h (by simpa using hlen), hline, List.nil_append, List.flatMap_eq_nil_iff,
    List.forall_mem_cons, List.forall_mem_cons]
  constructor
  · rintro ⟨-, -, hsay⟩ other hother
    exact (lineEntry_eq_nil_iff other).mp (hsay other hother)
  · intro hall
    exact ⟨⟨fun hentry => absurd hsilent hentry, fun other hother hentry =>
        absurd (hall other hother) hentry⟩,
      (lineEntry_eq_nil_iff piece).mpr hsilent, fun other hother =>
        (lineEntry_eq_nil_iff other).mpr (hall other hother)⟩

theorem utilTrimWhitespace_append_blank (s : Str) {gap : Str} (h : Blank gap) :
    utilTrimWhitespace (s ++ gap) = utilTrimWhitespace s := by
  rcases firstNonblank s with hblank | ⟨front, c, rest, hfront, hc, rfl⟩
  · rw [utilTrimWhitespace_blank_append hblank, utilTrimWhitespace_blank h,
      utilTrimWhitespace_blank hblank]
  · have hgap : ∀ d ∈ gap.reverse, isspace d = true := fun d hd => h d (List.mem_reverse.mp hd)
    unfold utilTrimWhitespace
    rw [List.append_assoc, List.dropWhile_append_of_pos hfront,
      List.dropWhile_append_of_pos hfront, List.cons_append,
      List.dropWhile_cons_of_neg (by simp [hc]), List.dropWhile_cons_of_neg (by simp [hc]),
      ← List.cons_append, List.reverse_append, List.dropWhile_append_of_pos hgap]

theorem utilTrimWhitespace_length_le (s : Str) :
    (utilTrimWhitespace s).length ≤ (s.dropWhile isspace).length := by
  unfold utilTrimWhitespace
  rw [List.length_reverse]
  refine (List.length_dropWhile_le _ _).trans ?_
  rw [List.length_reverse]

/-- What is not blank is not trimmed away. -/
theorem utilTrimWhitespace_append_ne (s : Str) {rest : Str} (h : ¬ Blank rest) :
    utilTrimWhitespace (s ++ rest) ≠ utilTrimWhitespace s := by
  rcases firstNonblank s with hblank | ⟨front, c, behind, hfront, hc, rfl⟩
  · rcases firstNonblank rest with hrest | ⟨front, c, behind, hfront, hc, rfl⟩
    · exact absurd hrest h
    · obtain ⟨core, hcore⟩ := utilTrimWhitespace_cons hc behind
      rw [utilTrimWhitespace_blank_append hblank, utilTrimWhitespace_blank_append hfront,
        utilTrimWhitespace_blank hblank, hcore]
      exact List.cons_ne_nil _ _
  · have hne : rest.reverse.dropWhile isspace ≠ [] := by
      intro hnil
      exact h fun d hd => List.dropWhile_eq_nil_iff.mp hnil d (List.mem_reverse.mpr hd)
    have hkept : utilTrimWhitespace (c :: (behind ++ rest))
        = (c :: behind) ++ (rest.reverse.dropWhile isspace).reverse := by
      unfold utilTrimWhitespace
      rw [List.dropWhile_cons_of_neg (by simp [hc]), ← List.cons_append, List.reverse_append,
        List.dropWhile_append, if_neg (by simpa using hne), List.reverse_append,
        List.reverse_reverse]
    rw [List.append_assoc, utilTrimWhitespace_blank_append hfront,
      utilTrimWhitespace_blank_append hfront, List.cons_append, hkept]
    intro heq
    have hle := utilTrimWhitespace_length_le (c :: behind)
    rw [List.dropWhile_cons_of_neg (by simp [hc]), ← heq, List.length_append,
      List.length_reverse] at hle
    have hpos := List.length_pos_iff.mpr hne
    omega

theorem silent_of_mem_fgets_blank {rest piece : Str} (h : Blank rest)
    (hpiece : piece ∈ fgets [] rest) : Silent piece := by
  refine Blank.silent fun c hc => h c ?_
  have hflatten := fgets_flatten [] rest
  rw [List.nil_append] at hflatten
  exact hflatten ▸ List.mem_flatten_of_mem hpiece hc

theorem entryArg_value {opt rest : Str} {c : Char} (hopt : ':' ∉ opt) (hc : c ≠ ':') :
    entryArg (opt ++ ':' :: c :: rest) = some (utilTrimWhitespace (c :: rest)) := by
  unfold entryArg
  rw [dropWhile_colon hopt]
  exact if_neg hc

/-- **A longer line whose argument starts in the first piece**: there is nothing but white
space behind that piece. -/
theorem readsInPieces_value {opt arg rest : Str} {c : Char} (hopt : ':' ∉ opt) (hc : c ≠ ':')
    (h : '\n' ∉ opt ++ ':' :: c :: arg)
    (hlen : (opt ++ ':' :: c :: arg).length + 1 = configFileLineLen)
    (hentry : ¬ Silent (opt ++ ':' :: c :: arg)) :
    ReadsInPieces (opt ++ ':' :: c :: arg ++ rest) ↔ Blank rest := by
  have hline : lineEntry (opt ++ ':' :: c :: arg ++ rest)
      = [optFormatted (entryOpt (opt ++ ':' :: c :: arg)),
          utilTrimWhitespace (c :: arg ++ rest)] := by
    have hentry' : ¬ Silent (opt ++ ':' :: c :: arg ++ rest) := by
      rwa [silent_append fun hblank => hentry hblank.silent]
    have hsame : entryOpt (opt ++ ':' :: c :: arg ++ rest) = entryOpt (opt ++ ':' :: c :: arg) := by
      unfold entryOpt
      rw [List.append_assoc, List.cons_append, takeWhile_colon hopt, takeWhile_colon hopt]
    rw [lineEntry_of_not_silent hentry', hsame, List.append_assoc, List.cons_append,
      List.cons_append, entryArg_value hopt hc]
    rfl
  have hpiece : lineEntry (opt ++ ':' :: c :: arg)
      = [optFormatted (entryOpt (opt ++ ':' :: c :: arg)), utilTrimWhitespace (c :: arg)] := by
    rw [lineEntry_of_not_silent hentry, entryArg_value hopt hc]
    rfl
  have hsingle : doubleColon (opt ++ ':' :: c :: arg) = false := by
    unfold doubleColon
    rw [dropWhile_colon hopt]
    exact beq_false_of_ne hc
  unfold ReadsInPieces
  rw [fgets_full (by simp) h (by simpa using hlen), hline, List.nil_append, List.flatMap_cons,
    hpiece, List.forall_mem_cons]
  constructor
  · intro h
    obtain ⟨-, heq⟩ := h
    by_contra hblank
    simp only [List.cons_append, List.nil_append, List.cons.injEq, true_and] at heq
    exact utilTrimWhitespace_append_ne (c :: arg) hblank heq.1.symm
  · intro hblank
    have hsilent : ∀ piece ∈ fgets [] rest, Silent piece := fun piece hmem =>
      silent_of_mem_fgets_blank hblank hmem
    refine ⟨⟨fun _ => hsingle, fun piece hmem hentry => absurd (hsilent piece hmem) hentry⟩, ?_⟩
    rw [List.flatMap_eq_nil_iff.mpr fun piece hmem =>
        (lineEntry_eq_nil_iff piece).mpr (hsilent piece hmem),
      List.append_nil, utilTrimWhitespace_append_blank (c :: arg) hblank]

/-- **A longer line that starts with white space**: what is behind it counts. -/
theorem readsInPieces_blank {piece rest : Str} (h : '\n' ∉ piece)
    (hlen : piece.length + 1 = configFileLineLen) (hblank : Blank piece) :
    ReadsInPieces (piece ++ rest) ↔ ReadsInPieces rest := by
  have hne : piece ≠ [] := by
    rintro rfl
    exact absurd hlen (by decide)
  have hpiece : lineEntry piece = [] := (lineEntry_eq_nil_iff piece).mpr hblank.silent
  unfold ReadsInPieces
  rw [fgets_full hne h (by simpa using hlen), List.nil_append, List.flatMap_cons, hpiece,
    List.nil_append, lineEntry_blank_append hblank, List.forall_mem_cons]
  apply and_congr_left
  intro _
  exact and_iff_right fun hentry => absurd hblank.silent hentry

theorem optFormatted_inj {opt opt' : Str} (h : opt ≠ []) (h' : opt' ≠ [])
    (heq : optFormatted opt = optFormatted opt') : opt = opt' := by
  have hpos := List.length_pos_iff.mpr h
  have hpos' := List.length_pos_iff.mpr h'
  unfold optFormatted at heq
  have hlen := congrArg List.length heq
  split at heq
  · split at heq
    · exact (List.cons.inj heq).2
    · rw [if_pos ‹_›, if_neg ‹_›, List.length_cons, List.length_cons, List.length_cons] at hlen
      omega
  · split at heq
    · rw [if_neg ‹_›, if_pos ‹_›, List.length_cons, List.length_cons, List.length_cons] at hlen
      omega
    · exact (List.cons.inj (List.cons.inj heq).2).2

theorem entryOpt_ne_nil {line : Str} (h : ¬ Silent line) : entryOpt line ≠ [] := by
  intro hnil
  exact h ((lineEntry_eq_nil_iff line).mp (if_pos (Or.inl hnil)))

theorem entryOpt_flag {line : Str} (h : ':' ∉ line) : entryOpt line = utilTrimWhitespace line := by
  unfold entryOpt
  rw [List.takeWhile_eq_self_iff.mpr (forall_ne_colon h)]

/-- A line without a colon is an option. -/
theorem lineEntry_flag {line : Str} (hcolon : ':' ∉ line) (hentry : ¬ Silent line) :
    lineEntry line = [optFormatted (utilTrimWhitespace line)] := by
  rw [lineEntry_of_not_silent hentry, entryOpt_flag hcolon]
  unfold entryArg
  rw [List.dropWhile_eq_nil_iff.mpr (forall_ne_colon hcolon)]
  rfl

/-- **A longer line without an argument**: there is nothing but white space behind the first
piece. -/
theorem readsInPieces_flag {piece rest : Str} (hcolon : ':' ∉ piece ++ rest) (h : '\n' ∉ piece)
    (hlen : piece.length + 1 = configFileLineLen) (hentry : ¬ Silent piece) :
    ReadsInPieces (piece ++ rest) ↔ Blank rest := by
  have hne : piece ≠ [] := by
    rintro rfl
    exact absurd hlen (by decide)
  have hcolon' : ':' ∉ piece := fun hmem => hcolon (List.mem_append_left rest hmem)
  have hentry' : ¬ Silent (piece ++ rest) := by
    rwa [silent_append fun hblank => hentry hblank.silent]
  have hsingle : doubleColon piece = false := by
    unfold doubleColon
    rw [List.dropWhile_eq_nil_iff.mpr (forall_ne_colon hcolon')]
  unfold ReadsInPieces
  rw [fgets_full hne h (by simpa using hlen), lineEntry_flag hcolon hentry', List.nil_append,
    List.flatMap_cons, lineEntry_flag hcolon' hentry, List.forall_mem_cons]
  constructor
  · intro h
    obtain ⟨-, heq⟩ := h
    by_contra hblank
    have htrim := optFormatted_inj (entryOpt_flag hcolon' ▸ entryOpt_ne_nil hentry)
      (entryOpt_flag hcolon ▸ entryOpt_ne_nil hentry') (List.cons.inj heq).1
    exact utilTrimWhitespace_append_ne piece hblank htrim.symm
  · intro hblank
    have hsilent : ∀ other ∈ fgets [] rest, Silent other := fun other hmem =>
      silent_of_mem_fgets_blank hblank hmem
    refine ⟨⟨fun _ => hsingle, fun other hmem hother => absurd (hsilent other hmem) hother⟩, ?_⟩
    rw [List.flatMap_eq_nil_iff.mpr fun other hmem =>
        (lineEntry_eq_nil_iff other).mpr (hsilent other hmem),
      List.append_nil, utilTrimWhitespace_append_blank piece hblank]

/-! ## §7. Two files. -/

/-- `rte_strsplit` for two fields. -/
def splitTwo (s : Str) : List Str :=
  if s = [] then []
  else
    match s.dropWhile (· ≠ ':') with
    | _ :: c :: rest => [s.takeWhile (· ≠ ':'), if c = ':' then [] else c :: rest]
    | _ => [s.takeWhile (· ≠ ':')]

/-- A system that splits its lines so. -/
def splitEnv : Env where
  getoptLong _ := []
  rteStrsplit s := some (splitTwo s)
  fopen _ := none

theorem splitEnv_splits : SplitsAtFirst splitEnv.rteStrsplit where
  whole s hne h := by
    show some (splitTwo s) = _
    unfold splitTwo
    rw [if_neg hne, List.dropWhile_eq_nil_iff.mpr (forall_ne_colon h),
      List.takeWhile_eq_self_iff.mpr (forall_ne_colon h)]
  last opt h := by
    show some (splitTwo (opt ++ [':'])) = _
    unfold splitTwo
    rw [if_neg (by simp), dropWhile_colon h, takeWhile_colon h]
  both opt c rest h hc := by
    show some (splitTwo (opt ++ ':' :: c :: rest)) = _
    unfold splitTwo
    rw [if_neg (by simp), dropWhile_colon h, takeWhile_colon h]
    simp [hc]
  double opt rest h := by
    refine ⟨[], ?_⟩
    show some (splitTwo (opt ++ ':' :: ':' :: rest)) = _
    unfold splitTwo
    rw [if_neg (by simp), dropWhile_colon h, takeWhile_colon h]
    simp

/-- Short lines. -/
def shortFile : Str := "# rules\nrules: a.rof\nc:4\n\nlatency-mode\n".toList

theorem shortFile_translates : Translates splitEnv shortFile
    ↔ ∀ line ∈ linesOf shortFile, ReadsInPieces line :=
  translates_iff splitEnv_splits (by decide) (by decide)

/-- EAL options of 200 characters. -/
def longEal : Str := "dpdk-eal:".toList ++ List.replicate 200 'x' ++ ['\n']

theorem longEal_not_translates : SplitsAtFirst splitEnv.rteStrsplit ∧ nul ∉ longEal
    ∧ (entries longEal).length ≤ 48 ∧ ¬ Translates splitEnv longEal := by
  refine ⟨splitEnv_splits, by decide +kernel, by decide +kernel, fun h => ?_⟩
  have hline := congrArg (fun args => args.toOption.map List.length) (h.lines 1)
  exact absurd hline (by decide +kernel)

end Meili.Conf
