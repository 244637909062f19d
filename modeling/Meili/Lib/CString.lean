/-
  Meili.Lib.CString — strings in memory.

  A buffer is the list of its cells, a pointer into it is an index, and a string ends at a
  NUL.  Whatever reads a cell behind the last one yields `none`, so a function that yields
  `some` has read nothing outside of the buffer.

    §1  `span`, `strlen`, `readStr`: scanning, and the string at a pointer;
    §2  `words`: what stands between delimiters;
    §3  `strtok`: the same words, one call after another (`strtok_eq_none`,
        `strtok_eq_some`);
    §4  `store`: writing cells;
    §5  `strlcpy`, `strncmp`: at most so many cells of a string.
-/
import Mathlib.Data.List.TakeWhile

namespace Meili.Lib.CString

/-- The character at the end of a string. -/
def nul : Char := '\x00'

/-! ## §1. Scanning. -/

/-- How many cells satisfy `p` before the first one that does not. -/
def span (p : Char → Bool) : List Char → Option ℕ
  | [] => none
  | c :: cells => if p c then (span p cells).map (· + 1) else some 0

theorem span_append {p : Char → Bool} {cells : List Char} (h : ∀ c ∈ cells, p c = true) {c : Char}
    (hc : p c = false) (post : List Char) : span p (cells ++ c :: post) = some cells.length := by
  induction cells with
  | nil => simp [span, hc]
  | cons d cells ih =>
      rw [List.forall_mem_cons] at h
      simp [span, h.1, ih h.2]

/-- The length of the string at `s`. -/
def strlen (buf : List Char) (s : ℕ) : Option ℕ := span (· ≠ nul) (buf.drop s)

/-- The string at `s`. -/
def readStr (buf : List Char) (s : ℕ) : Option (List Char) :=
  (strlen buf s).map fun n => (buf.drop s).take n

/-- At `s` stands the string `str`. -/
def Holds (buf : List Char) (s : ℕ) (str : List Char) : Prop :=
  nul ∉ str ∧ ∃ post, buf.drop s = str ++ nul :: post

theorem Holds.strlen_eq {buf : List Char} {s : ℕ} {str : List Char} (h : Holds buf s str) :
    strlen buf s = some str.length := by
  obtain ⟨hnul, post, hdrop⟩ := h
  have hstr : ∀ c ∈ str, decide (c ≠ nul) = true := by
    intro c hc
    exact decide_eq_true fun heq => hnul (heq ▸ hc)
  unfold strlen
  rw [hdrop]
  exact span_append hstr (by decide) post

theorem Holds.readStr_eq {buf : List Char} {s : ℕ} {str : List Char} (h : Holds buf s str) :
    readStr buf s = some str := by
  have hlen := h.strlen_eq
  obtain ⟨-, post, hdrop⟩ := h
  unfold readStr
  rw [hlen, hdrop, Option.map_some, List.take_left]

/-- A string with its NUL is a buffer. -/
theorem holds_zero {str : List Char} (h : nul ∉ str) : Holds (str ++ [nul]) 0 str :=
  ⟨h, [], rfl⟩

theorem getElem?_of_drop_eq {buf pre post : List Char} {c : Char} {s : ℕ}
    (h : buf.drop s = pre ++ c :: post) : buf[s + pre.length]? = some c := by
  rw [← List.getElem?_drop, h, List.getElem?_append_right le_rfl, Nat.sub_self,
    List.getElem?_cons_zero]

theorem drop_set_of_drop_eq {buf pre post : List Char} {c d : Char} {s : ℕ}
    (h : buf.drop s = pre ++ c :: post) :
    (buf.set (s + pre.length) d).drop s = pre ++ d :: post := by
  rw [List.drop_set, if_neg (by omega), h, Nat.add_sub_cancel_left,
    List.set_append_right _ _ le_rfl, Nat.sub_self, List.set_cons_zero]

/-! ## §2. Words. -/

/-- What stands between delimiters. -/
def words (delim : Char) (str : List Char) : List (List Char) :=
  (str.splitOn delim).filter (· ≠ [])

theorem words_nil (delim : Char) : words delim [] = [] := rfl

theorem words_delim_cons (delim : Char) (str : List Char) :
    words delim (delim :: str) = words delim str := by
  unfold words
  rw [List.splitOn_eq_splitOnP, List.splitOnP_cons_eq_if_modifyHead, if_pos (by simp),
    List.filter_cons_of_neg (by simp), List.splitOn_eq_splitOnP]

theorem words_append_left (delim : Char) {gap : List Char} (h : ∀ c ∈ gap, c = delim)
    (str : List Char) : words delim (gap ++ str) = words delim str := by
  induction gap with
  | nil => rfl
  | cons c gap ih =>
      rw [List.forall_mem_cons] at h
      rw [h.1, List.cons_append, words_delim_cons, ih h.2]

theorem beq_delim_eq_false {delim : Char} {word : List Char} (h : delim ∉ word) :
    ∀ c ∈ word, (c == delim) = false := by
  intro c hc
  exact beq_false_of_ne fun heq => h (heq ▸ hc)

theorem words_word {delim : Char} {word : List Char} (hne : word ≠ []) (h : delim ∉ word) :
    words delim word = [word] := by
  unfold words
  rw [List.splitOn_eq_splitOnP, List.splitOnP_eq_singleton (beq_delim_eq_false h)]
  exact List.filter_cons_of_pos (by simpa using hne)

theorem words_word_append {delim : Char} {word : List Char} (hne : word ≠ []) (h : delim ∉ word)
    (rest : List Char) : words delim (word ++ delim :: rest) = word :: words delim rest := by
  unfold words
  rw [List.splitOn_eq_splitOnP,
    List.splitOnP_append_cons_of_forall_mem (beq_delim_eq_false h) delim (by simp)]
  exact List.filter_cons_of_pos (by simpa using hne)

/-- A list up to the first element that does not satisfy `p`. -/
theorem exists_prefix (p : Char → Bool) (l : List Char) :
    ∃ pre, (∀ c ∈ pre, p c = true)
      ∧ (l = pre ∨ ∃ c post, p c = false ∧ l = pre ++ c :: post) := by
  induction l with
  | nil => exact ⟨[], by simp, Or.inl rfl⟩
  | cons d l ih =>
      by_cases hd : p d = true
      · obtain ⟨pre, hpre, hl⟩ := ih
        refine ⟨d :: pre, List.forall_mem_cons.mpr ⟨hd, hpre⟩, ?_⟩
        rcases hl with rfl | ⟨c, post, hc, rfl⟩
        · exact Or.inl rfl
        · exact Or.inr ⟨c, post, hc, rfl⟩
      · exact ⟨[], by simp, Or.inr ⟨d, l, by simpa using hd, rfl⟩⟩

/-- A string is a gap, or a gap, a word and what is behind it. -/
theorem words_cases (delim : Char) (str : List Char) :
    ((∀ c ∈ str, c = delim) ∧ words delim str = [])
    ∨ ∃ gap word, (∀ c ∈ gap, c = delim) ∧ word ≠ [] ∧ delim ∉ word
        ∧ (str = gap ++ word ∧ words delim str = [word]
          ∨ ∃ rest, str = gap ++ (word ++ delim :: rest)
              ∧ words delim str = word :: words delim rest) := by
  obtain ⟨gap, hgap, hstr⟩ := exists_prefix (· == delim) str
  replace hgap : ∀ c ∈ gap, c = delim := fun c hc => eq_of_beq (hgap c hc)
  rcases hstr with rfl | ⟨d, body, hd, rfl⟩
  · -- delimiters only
    have hnone := words_append_left delim hgap []
    rw [List.append_nil, words_nil] at hnone
    exact Or.inl ⟨hgap, hnone⟩
  obtain ⟨tail, htail, hbody⟩ := exists_prefix (· != delim) body
  have hd : d ≠ delim := ne_of_beq_false hd
  have hword : delim ∉ d :: tail := by
    intro h
    rcases h with _ | ⟨_, hmem⟩
    · exact hd rfl
    · exact absurd rfl (bne_iff_ne.mp (htail delim hmem))
  refine Or.inr ⟨gap, d :: tail, hgap, List.cons_ne_nil _ _, hword, ?_⟩
  rcases hbody with rfl | ⟨c, rest, hc, rfl⟩
  · refine Or.inl ⟨rfl, ?_⟩
    rw [words_append_left delim hgap, words_word (List.cons_ne_nil _ _) hword]
  · obtain rfl : c = delim := by simpa using hc
    refine Or.inr ⟨rest, rfl, ?_⟩
    rw [words_append_left c hgap, ← List.cons_append,
      words_word_append (List.cons_ne_nil _ _) hword]

/-! ## §3. `strtok`. -/

/-- What a call of `strtok` leaves behind. -/
structure Strtok where
  buf : List Char
  /-- Where the next call goes on. -/
  save : ℕ
  /-- What is returned; `none` is `NULL`. -/
  token : Option ℕ

/-- The word at `token` gets a NUL at its end, if it has none. -/
def cutWord (delim : Char) (buf : List Char) (token : ℕ) : Option Strtok := do
  let len ← span (fun c => c != delim && c != nul) (buf.drop token)
  let last ← buf[token + len]?
  if last = nul then some ⟨buf, token + len, some token⟩
  else some ⟨buf.set (token + len) nul, token + len + 1, some token⟩

/-- `strtok` at `s`, with one delimiter. -/
def strtok (delim : Char) (buf : List Char) (s : ℕ) : Option Strtok := do
  let gap ← span (· == delim) (buf.drop s)
  let first ← buf[s + gap]?
  if first = nul then some ⟨buf, s + gap, none⟩ else cutWord delim buf (s + gap)

variable {delim : Char} {buf : List Char} {s : ℕ} {str word post : List Char}

theorem wordChars (hdel : delim ∉ word) (hnul : nul ∉ word) :
    ∀ c ∈ word, (c != delim && c != nul) = true := by
  intro c hc
  rw [Bool.and_eq_true, bne_iff_ne, bne_iff_ne]
  exact ⟨fun heq => hdel (heq ▸ hc), fun heq => hnul (heq ▸ hc)⟩

theorem cutWord_last (hdel : delim ∉ word) (hnul : nul ∉ word)
    (hdrop : buf.drop s = word ++ nul :: post) :
    cutWord delim buf s = some ⟨buf, s + word.length, some s⟩ := by
  have hspan := span_append (wordChars hdel hnul) (c := nul) (by simp) post
  have hlast := getElem?_of_drop_eq hdrop
  unfold cutWord
  rw [hdrop, hspan]
  simp [hlast]

theorem cutWord_inner (hdelim : delim ≠ nul) (hdel : delim ∉ word) (hnul : nul ∉ word)
    (hdrop : buf.drop s = word ++ delim :: post) :
    cutWord delim buf s = some ⟨buf.set (s + word.length) nul, s + word.length + 1, some s⟩ := by
  have hspan := span_append (wordChars hdel hnul) (c := delim) (by simp) post
  have hlast := getElem?_of_drop_eq hdrop
  unfold cutWord
  rw [hdrop, hspan]
  simp [hlast, hdelim]

theorem strtok_gap {gap : List Char} (hgap : ∀ c ∈ gap, c = delim) {c : Char} (hc : c ≠ delim)
    (hdrop : buf.drop s = gap ++ c :: post) :
    strtok delim buf s = if c = nul then some ⟨buf, s + gap.length, none⟩
      else cutWord delim buf (s + gap.length) := by
  have hspan : span (· == delim) (gap ++ c :: post) = some gap.length :=
    span_append (p := (· == delim)) (fun d hd => by simp [hgap d hd]) (beq_false_of_ne hc) post
  have hfirst := getElem?_of_drop_eq hdrop
  unfold strtok
  rw [hdrop, hspan]
  simp [hfirst]

/-- **No word** is left. -/
theorem strtok_eq_none (hdelim : delim ≠ nul) (h : Holds buf s str)
    (hwords : words delim str = []) :
    strtok delim buf s = some ⟨buf, s + str.length, none⟩ := by
  obtain ⟨-, post, hdrop⟩ := h
  rcases words_cases delim str with ⟨hgap, -⟩ | ⟨gap, word, -, -, -, hcase⟩
  · rw [strtok_gap hgap hdelim.symm hdrop, if_pos rfl]
  · rcases hcase with ⟨-, heq⟩ | ⟨rest, -, heq⟩
    all_goals
      rw [heq] at hwords
      exact absurd hwords (List.cons_ne_nil _ _)

/-- **The next word**, and the string behind it. -/
theorem strtok_eq_some (hdelim : delim ≠ nul) (h : Holds buf s str)
    {rest : List (List Char)} (hwords : words delim str = word :: rest) :
    ∃ buf' save token str', strtok delim buf s = some ⟨buf', save, some token⟩
      ∧ Holds buf' token word ∧ Holds buf' save str' ∧ words delim str' = rest := by
  obtain ⟨hnul, post, hdrop⟩ := h
  rcases words_cases delim str with ⟨-, hnone⟩ | ⟨gap, w, hgap, hne, hdel, hcase⟩
  · rw [hnone] at hwords
    cases hwords
  obtain ⟨d, tail, rfl⟩ := List.exists_cons_of_ne_nil hne
  have hd : d ≠ delim := fun heq => hdel (heq ▸ List.mem_cons_self)
  have hskip : ∀ {behind}, buf.drop s = gap ++ ((d :: tail) ++ behind) →
      buf.drop (s + gap.length) = (d :: tail) ++ behind := by
    intro behind heq
    rw [← List.drop_drop, heq, List.drop_left]
  rcases hcase with ⟨rfl, heq⟩ | ⟨str', rfl, heq⟩
  · -- the last word ends with the string
    obtain ⟨rfl, rfl⟩ := List.cons.inj (heq.symm.trans hwords)
    rw [List.mem_append, not_or] at hnul
    rw [List.append_assoc] at hdrop
    have hdnul : d ≠ nul := fun h => hnul.2 (h ▸ List.mem_cons_self)
    have htoken := hskip hdrop
    refine ⟨buf, s + gap.length + (d :: tail).length, s + gap.length, [], ?_,
      ⟨hnul.2, post, htoken⟩, ⟨List.not_mem_nil, post, ?_⟩, rfl⟩
    · rw [strtok_gap hgap hd hdrop, if_neg hdnul, cutWord_last hdel hnul.2 htoken]
    · rw [← List.drop_drop, htoken, List.drop_left]
      rfl
  · obtain ⟨rfl, rfl⟩ := List.cons.inj (heq.symm.trans hwords)
    rw [List.mem_append, List.mem_append, not_or, not_or] at hnul
    obtain ⟨-, hnul, hbehind⟩ := hnul
    rw [List.append_assoc, List.append_assoc] at hdrop
    have hdnul : d ≠ nul := fun h => hnul (h ▸ List.mem_cons_self)
    have htoken := hskip hdrop
    have hcut := drop_set_of_drop_eq (d := nul) htoken
    refine ⟨buf.set (s + gap.length + (d :: tail).length) nul,
      s + gap.length + (d :: tail).length + 1, s + gap.length, str', ?_, ⟨hnul, _, hcut⟩,
      ⟨fun h => hbehind (List.mem_cons_of_mem _ h), post, ?_⟩, rfl⟩
    · rw [strtok_gap hgap hd hdrop, if_neg hdnul, cutWord_inner hdelim hdel hnul htoken]
    · rw [Nat.add_assoc, ← List.drop_drop, hcut, ← List.drop_drop, List.drop_left]
      rfl

/-! ## §4. Writing. -/

/-- The cells from `s` on are overwritten; `none` where this goes past the last one. -/
def store (buf : List Char) (s : ℕ) (cells : List Char) : Option (List Char) :=
  if s + cells.length ≤ buf.length then
    some (buf.take s ++ cells ++ buf.drop (s + cells.length))
  else none

section Store

variable {buf buf' cells str : List Char} {s : ℕ}

theorem store_fits (h : s + cells.length ≤ buf.length) :
    store buf s cells = some (buf.take s ++ cells ++ buf.drop (s + cells.length)) :=
  if_pos h

theorem store_outside (h : ¬ s + cells.length ≤ buf.length) : store buf s cells = none :=
  if_neg h

theorem store_eq_some (h : store buf s cells = some buf') :
    s + cells.length ≤ buf.length
      ∧ buf' = buf.take s ++ cells ++ buf.drop (s + cells.length) := by
  unfold store at h
  split at h
  · next hfits => exact ⟨hfits, (Option.some.inj h).symm⟩
  · cases h

/-- A buffer keeps its size. -/
theorem store_length (h : store buf s cells = some buf') : buf'.length = buf.length := by
  obtain ⟨hfits, rfl⟩ := store_eq_some h
  rw [List.length_append, List.length_append, List.length_take, List.length_drop]
  omega

/-- What stands in front of a store, and what it has written. -/
theorem store_take (h : store buf s cells = some buf') :
    buf'.take (s + cells.length) = buf.take s ++ cells := by
  obtain ⟨hfits, rfl⟩ := store_eq_some h
  have hlength : (buf.take s ++ cells).length = s + cells.length := by
    rw [List.length_append, List.length_take]
    omega
  rw [← hlength, List.take_left]

/-- A string is stored with its NUL. -/
theorem holds_of_take (hnul : nul ∉ str) (h : buf.take (str.length + 1) = str ++ [nul]) :
    Holds buf 0 str := by
  refine ⟨hnul, buf.drop (str.length + 1), ?_⟩
  have hsplit := List.take_append_drop (str.length + 1) buf
  rw [h, List.append_assoc] at hsplit
  exact hsplit.symm

theorem holds_store (hnul : nul ∉ str) (h : store buf 0 (str ++ [nul]) = some buf') :
    Holds buf' 0 str := by
  have htake := store_take h
  rw [List.take_zero, List.nil_append, List.length_append, Nat.zero_add] at htake
  exact holds_of_take hnul htake

end Store

/-! ## §5. At most so many cells. -/

/-- The string that `strlcpy` leaves in a buffer of `n` cells. -/
def strlcpy (src : List Char) (n : ℕ) : List Char := src.take (n - 1)

/-- `strncmp(s, t, n) == 0`, of strings without their NULs. -/
def strncmpEq : ℕ → List Char → List Char → Bool
  | 0, _, _ => true
  | _ + 1, [], [] => true
  | n + 1, c :: s, d :: t => c == d && strncmpEq n s t
  | _ + 1, _, _ => false

section Bounded

variable {s t : List Char} {n : ℕ}

theorem strlcpy_length_lt (s : List Char) (hn : 0 < n) : (strlcpy s n).length < n := by
  unfold strlcpy
  rw [List.length_take]
  omega

theorem strlcpy_of_lt (h : s.length < n) : strlcpy s n = s := List.take_of_length_le (by omega)

theorem strncmpEq_iff : strncmpEq n s t = true ↔ s.take n = t.take n := by
  induction n generalizing s t with
  | zero => simp [strncmpEq]
  | succ n ih => cases s <;> cases t <;> simp [strncmpEq, ih]

/-- Against a string that is shorter than that, everything is compared. -/
theorem strncmpEq_of_lt (h : t.length < n) : strncmpEq n s t = true ↔ s = t := by
  rw [strncmpEq_iff, List.take_of_length_le h.le]
  constructor
  · intro heq
    have hlen := congrArg List.length heq
    rw [List.length_take] at hlen
    rwa [List.take_of_length_le (by omega)] at heq
  · intro heq
    rw [heq, List.take_of_length_le h.le]

end Bounded

end Meili.Lib.CString
