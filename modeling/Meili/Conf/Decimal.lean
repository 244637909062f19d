/-
  Meili.Conf.Decimal — decimal numbers.

  `util_str_to_dec` (`src/utils/str/str_helpers.c`) reads a number with `strtol` and makes
  three tests of its own: `errno` with the greatest and the least `long`, the number of
  characters that have been used, and the bits of the number above `max_bytes`.  Here it is
  embedded with these tests, on `long`s; `utilStrToDecLong_eq` says that `utilStrToDec` is
  the same.

    • `strtol_eq_iff` — what `strtol` reads to the end of a string;
    • `highBits_iff` — the test of the high bits;
    • `utilStrToDec_accepts_iff` — the numbers that are accepted.
-/
import Meili.Conf.Options
import Mathlib.Data.List.TakeWhile
import Mathlib.Tactic.IntervalCases

namespace Meili.Conf

/-! ## §1. Numbers as `long`. -/

/-- `strtol` on `long`: the number, or the nearest `long`, whether `errno` is `ERANGE`, and
what is left of the string. -/
def strtolLong (str : Str) : Int64 × Bool × Str :=
  let (ret, rest) := strtol str
  if longMax < ret then (Int64.maxValue, true, rest)
  else if ret < longMin then (Int64.minValue, true, rest)
  else (Int64.ofInt ret, false, rest)

/-- `(1L << (max_bytes * 8)) - 1`. -/
def byteMask (maxBytes : ℕ) : Int64 := ((1 : Int64) <<< Int64.ofNat (maxBytes * 8)) - 1

/-- `util_str_to_dec`: what it returns, and `*output`. -/
def utilStrToDecLong (str : Str) (output : Int64) (maxBytes : ℕ) : ℤ × Int64 :=
  if str = [] ∨ maxBytes = 0 ∨ 8 < maxBytes then (errInval, output)
  else
    let (ret, erange, rest) := strtolLong str
    let byteLen := str.length - rest.length
    if ((ret = Int64.maxValue ∨ ret = Int64.minValue) ∧ erange = true) ∨ byteLen ≠ str.length then
      (errInval, output)
    else if maxBytes < 8 ∧ ret &&& ~~~byteMask maxBytes ≠ 0 then (errInval, output)
    else (0, ret)

/-- `conf_set_uint32_t`: what it returns, and `*dest`; `tmp` is what its local variable
holds before. -/
def confSetUint32Long (dest : UInt32) (tmp : Int64) (optarg : Str) : ℤ × UInt32 :=
  if dest ≠ 0 then (0, dest)
  else
    let (err, tmp) := utilStrToDecLong optarg tmp 4
    if err ≠ 0 then (errInval, dest)
    else if tmp = 0 then (0, dest)
    else (0, UInt32.ofBitVec (tmp.toBitVec.setWidth 32))

/-! ## §2. Decimal numbers. -/

/-- `str` is the decimal number `v`: white space, a sign, and digits. -/
def Decimal (str : Str) (v : ℤ) : Prop :=
  ∃ space sign digits : Str, str = space ++ (sign ++ digits)
    ∧ (∀ c ∈ space, isspace c = true)
    ∧ (sign = [] ∨ sign = ['+'] ∨ sign = ['-'])
    ∧ digits ≠ [] ∧ (∀ c ∈ digits, c.isDigit = true)
    ∧ v = if sign = ['-'] then -(ofDigits digits : ℤ) else ofDigits digits

theorem isspace_of_isDigit {c : Char} (h : c.isDigit = true) : isspace c = false := by
  unfold Char.isDigit at h
  rw [Bool.and_eq_true, decide_eq_true_eq, decide_eq_true_eq] at h
  have hlow : 48 ≤ c.toNat := h.1
  unfold isspace
  rw [Bool.or_eq_false_iff, Bool.and_eq_false_iff, decide_eq_false_iff_not,
    decide_eq_false_iff_not, decide_eq_false_iff_not]
  omega

/-- `strtol` takes a sign and reads the digits behind it. -/
theorem strtol_cases (str : Str) :
    ∃ sign unsigned : Str, str.dropWhile isspace = sign ++ unsigned
      ∧ (sign = [] ∨ sign = ['+'] ∨ sign = ['-'])
      ∧ strtol str = if unsigned.takeWhile Char.isDigit = [] then (0, str)
          else
            (if sign = ['-'] then -(ofDigits (unsigned.takeWhile Char.isDigit) : ℤ)
              else ofDigits (unsigned.takeWhile Char.isDigit),
              unsigned.dropWhile Char.isDigit) := by
  unfold strtol
  rcases str.dropWhile isspace with - | ⟨d, body⟩
  · exact ⟨[], [], rfl, Or.inl rfl, rfl⟩
  by_cases hminus : d = '-'
  · subst hminus
    exact ⟨['-'], body, rfl, Or.inr (Or.inr rfl), rfl⟩
  by_cases hplus : d = '+'
  · subst hplus
    exact ⟨['+'], body, rfl, Or.inr (Or.inl rfl), rfl⟩
  · exact ⟨[], d :: body, rfl, Or.inl rfl, by simp [hminus, hplus]⟩

/-- **What `strtol` reads to the end.** -/
theorem strtol_eq_iff {str : Str} (hne : str ≠ []) (v : ℤ) :
    strtol str = (v, []) ↔ Decimal str v := by
  constructor
  · intro h
    obtain ⟨sign, unsigned, hbody, hsign, hret⟩ := strtol_cases str
    rw [hret] at h
    by_cases hnil : unsigned.takeWhile Char.isDigit = []
    · -- nothing has been read
      rw [if_pos hnil, Prod.mk.injEq] at h
      exact absurd h.2 hne
    · rw [if_neg hnil, Prod.mk.injEq] at h
      obtain ⟨hv, hrest⟩ := h
      have hall : unsigned.takeWhile Char.isDigit = unsigned := by
        have happ := List.takeWhile_append_dropWhile (p := Char.isDigit) (l := unsigned)
        rwa [hrest, List.append_nil] at happ
      rw [hall] at hv hnil
      refine ⟨str.takeWhile isspace, sign, unsigned, ?_, fun c hc => List.mem_takeWhile_imp hc,
        hsign, hnil, List.takeWhile_eq_self_iff.mp hall, hv.symm⟩
      rw [← hbody, List.takeWhile_append_dropWhile]
  · intro h
    obtain ⟨space, sign, digits, rfl, hspace, hsign, hdigits, hdigit, rfl⟩ := h
    obtain ⟨d, digits, rfl⟩ := List.exists_cons_of_ne_nil hdigits
    have hd := hdigit d List.mem_cons_self
    have htake : (d :: digits).takeWhile Char.isDigit = d :: digits :=
      List.takeWhile_eq_self_iff.mpr hdigit
    have hdrop : (d :: digits).dropWhile Char.isDigit = [] :=
      List.dropWhile_eq_nil_iff.mpr hdigit
    have hbody : (space ++ (sign ++ d :: digits)).dropWhile isspace = sign ++ d :: digits := by
      rw [List.dropWhile_append_of_pos hspace]
      rcases hsign with rfl | rfl | rfl
      · exact List.dropWhile_cons_of_neg (by simp [isspace_of_isDigit hd])
      · rfl
      · rfl
    have hminus : d ≠ '-' := by
      rintro rfl
      exact absurd hd (by decide)
    have hplus : d ≠ '+' := by
      rintro rfl
      exact absurd hd (by decide)
    unfold strtol
    dsimp only
    rw [hbody]
    rcases hsign with rfl | rfl | rfl
    · simp only [List.nil_append, List.head?_cons, Option.some.injEq, hminus, hplus, or_self,
        if_false, htake, hdigits, hdrop, List.ne_cons_self]
    · simp only [List.singleton_append, List.head?_cons, List.tail_cons, or_true, if_true, htake,
        hdigits, if_false, hdrop]
      rfl
    · simp only [List.singleton_append, List.head?_cons, List.tail_cons, true_or, if_true, htake,
        hdigits, if_false, hdrop]

theorem strtol_rest_length (str : Str) : (strtol str).2.length ≤ str.length := by
  obtain ⟨sign, unsigned, hbody, -, hret⟩ := strtol_cases str
  have hspace := List.length_dropWhile_le isspace str
  have hdigits := List.length_dropWhile_le Char.isDigit unsigned
  rw [hbody, List.length_append] at hspace
  rw [hret]
  by_cases hnil : unsigned.takeWhile Char.isDigit = []
  · rw [if_pos hnil]
  · rw [if_neg hnil]
    show (unsigned.dropWhile Char.isDigit).length ≤ str.length
    omega

/-! ## §3. The tests. -/

theorem and_not_mask_eq_zero_iff (x : BitVec 64) (k : ℕ) :
    x &&& ~~~BitVec.ofNat 64 (2 ^ k - 1) = 0#64 ↔ x.toNat < 2 ^ k := by
  have hbit : ∀ i, i < 64 → (x &&& ~~~BitVec.ofNat 64 (2 ^ k - 1)).getLsbD i
      = (x.getLsbD i && !decide (i < k)) := by
    intro i hi
    rw [BitVec.getLsbD_and, BitVec.getLsbD_not, BitVec.getLsbD_ofNat, Nat.testBit_two_pow_sub_one]
    simp [hi]
  constructor
  · intro h
    apply Nat.lt_pow_two_of_testBit _
    intro i hi
    by_cases hlt : i < 64
    · have hi' := hbit i hlt
      rw [h] at hi'
      have hzero : x.getLsbD i = false := by simpa [Nat.not_lt.mpr hi] using hi'.symm
      exact hzero
    · exact BitVec.getLsbD_of_ge x i (Nat.not_lt.mp hlt)
  · intro h
    apply BitVec.eq_of_getLsbD_eq
    intro i hi
    rw [hbit i hi]
    by_cases hlt : i < k
    · simp [hlt]
    · have hzero : x.getLsbD i = false := Nat.testBit_lt_two_pow
        (h.trans_le (Nat.pow_le_pow_right (by decide) (Nat.not_lt.mp hlt)))
      rw [hzero, Bool.false_and, BitVec.getLsbD_zero]

theorem byteMask_eq {maxBytes : ℕ} (h : maxBytes ≤ 7) :
    (byteMask maxBytes).toBitVec = BitVec.ofNat 64 (2 ^ (8 * maxBytes) - 1) := by
  interval_cases maxBytes
  all_goals rfl

/-- **The test of the high bits.** -/
theorem highBits_iff {maxBytes : ℕ} (h : maxBytes ≤ 7) (ret : Int64) :
    ret &&& ~~~byteMask maxBytes ≠ 0 ↔ ret.toInt < 0 ∨ 2 ^ (8 * maxBytes) ≤ ret.toInt := by
  have hpow : 2 ^ (8 * maxBytes) ≤ 2 ^ 56 := Nat.pow_le_pow_right (by decide) (by omega)
  have hzero : ret &&& ~~~byteMask maxBytes = 0 ↔ ret.toBitVec.toNat < 2 ^ (8 * maxBytes) := by
    rw [← and_not_mask_eq_zero_iff, ← byteMask_eq h, ← Int64.toBitVec_inj, Int64.toBitVec_and,
      Int64.toBitVec_not]
    rfl
  have hint : ret.toInt = ret.toBitVec.toInt := rfl
  have hcast : ((2 ^ (8 * maxBytes) : ℕ) : ℤ) = 2 ^ (8 * maxBytes) := by push_cast; rfl
  rw [Ne, hzero, hint, BitVec.toInt_eq_toNat_cond, ← hcast]
  have hlt := ret.toBitVec.isLt
  split
  · omega
  · omega

/-- What the tests let through, with `*output`. -/
def decimalResult (output : Int64) : Option ℤ → ℤ × Int64
  | none => (errInval, output)
  | some v => (0, Int64.ofInt v)

/-- **Testing `long`s is testing numbers.** -/
theorem utilStrToDecLong_eq {maxBytes : ℕ} (hpos : 1 ≤ maxBytes) (hle : maxBytes ≤ 7) (str : Str)
    (output : Int64) :
    utilStrToDecLong str output maxBytes = decimalResult output (utilStrToDec str maxBytes) := by
  unfold utilStrToDecLong utilStrToDec
  by_cases hinval : str = [] ∨ maxBytes = 0 ∨ 8 < maxBytes
  · rw [if_pos hinval, if_pos hinval]
    rfl
  rw [if_neg hinval, if_neg hinval]
  have hpre := strtol_rest_length str
  rcases hret : strtol str with ⟨ret, rest⟩
  rw [hret] at hpre
  have hused : str.length - rest.length ≠ str.length ↔ rest ≠ [] := by
    have hne : str ≠ [] := fun h => hinval (Or.inl h)
    have hlen : 0 < str.length := List.length_pos_iff.mpr hne
    rw [Ne, Ne, ← List.length_eq_zero_iff]
    omega
  have hlt8 : maxBytes < 8 := by omega
  unfold strtolLong
  simp only [hret]
  by_cases hmax : longMax < ret
  · -- `strtol` returns `LONG_MAX`, and `errno` is `ERANGE`
    simp only [hmax, if_true, true_or, or_true, and_self, decimalResult]
  by_cases hmin : ret < longMin
  · simp only [hmax, hmin, if_true, if_false, true_or, or_true, and_self, decimalResult]
  have htoInt : (Int64.ofInt ret).toInt = ret :=
    Int64.toInt_ofInt_of_le (not_lt.mp hmin) (by unfold longMax at hmax; omega)
  simp only [hmax, hmin, if_false, hused, Bool.false_eq_true, and_false, false_or, hlt8, true_and,
    highBits_iff hle, htoInt]
  split
  · rfl
  · split
    · rfl
    · rfl

/-! ## §4. What is accepted. -/

/-- `str` is a decimal number that fits `maxBytes` bytes. -/
def Representable (str : Str) (maxBytes : ℕ) (v : ℤ) : Prop :=
  Decimal str v ∧ 0 ≤ v ∧ v < 2 ^ (8 * maxBytes)

theorem utilStrToDec_eq_some_iff {maxBytes : ℕ} (hpos : 1 ≤ maxBytes) (hle : maxBytes ≤ 7)
    (str : Str) (v : ℤ) : utilStrToDec str maxBytes = some v ↔ Representable str maxBytes v := by
  have hpow : (2 : ℤ) ^ (8 * maxBytes) ≤ 2 ^ 56 := pow_le_pow_right₀ (by decide) (by omega)
  have hlt8 : maxBytes < 8 := by omega
  unfold utilStrToDec
  by_cases hnil : str = []
  · -- the empty string has no digit
    subst hnil
    rw [if_pos (Or.inl rfl)]
    refine iff_of_false nofun ?_
    intro h
    obtain ⟨⟨space, sign, digits, hstr, -, -, hdigits, -⟩, -⟩ := h
    have := List.append_eq_nil_iff.mp hstr.symm
    exact hdigits (List.append_eq_nil_iff.mp this.2).2
  have hvalid : ¬(str = [] ∨ maxBytes = 0 ∨ 8 < maxBytes) := by
    intro h
    rcases h with hstr | hbytes
    · exact hnil hstr
    · omega
  rw [if_neg hvalid]
  unfold Representable
  rw [← strtol_eq_iff hnil]
  rcases hret : strtol str with ⟨ret, rest⟩
  dsimp only
  unfold longMin longMax
  by_cases hrest : rest = []
  · by_cases hrange : ret < 0 ∨ 2 ^ (8 * maxBytes) ≤ ret
    · refine iff_of_false (by simp [hlt8, hrange]) ?_
      intro h
      obtain ⟨heq, hlow, hhigh⟩ := h
      have hval : ret = v := congrArg Prod.fst heq
      omega
    · have herrno : ¬(ret < -2 ^ 63 ∨ 2 ^ 63 - 1 < ret ∨ rest ≠ []) := by
        intro h
        rcases h with hmin | hmax | hne
        · omega
        · omega
        · exact hne hrest
      rw [if_neg herrno, if_neg fun h => hrange h.2, Option.some.injEq, Prod.mk.injEq]
      constructor
      · rintro rfl
        exact ⟨⟨rfl, hrest⟩, by omega, by omega⟩
      · exact fun h => h.1.1
  · rw [if_pos (Or.inr (Or.inr hrest))]
    refine iff_of_false nofun ?_
    intro h
    obtain ⟨heq, -⟩ := h
    exact hrest (congrArg Prod.snd heq)

/-- The two embeddings of `conf_set_uint32_t` agree. -/
theorem confSetUint32Long_eq (dest : UInt32) (tmp : Int64) (optarg : Str) :
    confSetUint32Long dest tmp optarg
      = match confSetUint32 dest optarg with
        | .ok dest' => (0, dest')
        | .error _ => (errInval, dest) := by
  unfold confSetUint32Long confSetUint32
  by_cases hdest : dest ≠ 0
  · rw [if_pos hdest, if_pos hdest]
  rw [if_neg hdest, if_neg hdest, utilStrToDecLong_eq (by decide) (by decide)]
  rcases hdec : utilStrToDec optarg 4 with - | v
  · rfl
  obtain ⟨-, hlow, hhigh⟩ := (utilStrToDec_eq_some_iff (by decide) (by decide) _ _).mp hdec
  have htoInt : (Int64.ofInt v).toInt = v := Int64.toInt_ofInt_of_le (by omega) (by omega)
  have hzero : Int64.ofInt v = 0 ↔ v = 0 := by
    rw [← Int64.toInt_inj, htoInt, Int64.toInt_zero]
  have hstored : UInt32.ofBitVec ((Int64.ofInt v).toBitVec.setWidth 32) = UInt32.ofNat v.toNat := by
    obtain ⟨n, rfl⟩ := Int.eq_ofNat_of_zero_le hlow
    rw [Int64.toBitVec_ofInt, BitVec.ofInt_natCast, BitVec.setWidth_ofNat_of_le (by decide)]
    rfl
  simp only [decimalResult, ne_eq, not_true_eq_false, if_false, hzero, hstored]
  split
  · rfl
  · rfl

/-- A field is set to the number that its argument stands for. -/
theorem confSetUint32_decimal {dest dest' : UInt32} {optarg : Str}
    (h : confSetUint32 dest optarg = .ok dest') (hne : dest' ≠ dest) :
    Decimal optarg dest'.toNat := by
  unfold confSetUint32 at h
  by_cases hdest : dest ≠ 0
  · rw [if_pos hdest] at h
    exact absurd (Except.ok.inj h).symm hne
  rw [if_neg hdest] at h
  rcases hdec : utilStrToDec optarg 4 with - | v
  · rw [hdec] at h
    cases h
  obtain ⟨hv, hlow, hhigh⟩ := (utilStrToDec_eq_some_iff (by decide) (by decide) _ _).mp hdec
  rw [hdec] at h
  dsimp only at h
  by_cases hzero : v = 0
  · rw [if_pos hzero] at h
    exact absurd (Except.ok.inj h).symm hne
  · rw [if_neg hzero, Except.ok.injEq] at h
    have hval : ((UInt32.ofNat v.toNat).toNat : ℤ) = v := by
      rw [UInt32.toNat_ofNat_of_lt' (by unfold UInt32.size; omega), Int.toNat_of_nonneg hlow]
    rwa [← h, hval]

/-- **A number is accepted exactly when it is representable.** -/
theorem utilStrToDec_accepts_iff (str : Str) (output tmp : Int64) (dest : UInt32) {maxBytes : ℕ}
    (hpos : 1 ≤ maxBytes) (hle : maxBytes ≤ 7) :
    ((utilStrToDecLong str output maxBytes).1 = 0 ↔ ∃ v, Representable str maxBytes v)
    ∧ (∀ v, Representable str maxBytes v → (utilStrToDecLong str output maxBytes).2.toInt = v)
    ∧ ((utilStrToDecLong str output maxBytes).1 ≠ 0 →
        (utilStrToDecLong str output maxBytes).2 = output)
    ∧ ((confSetUint32Long dest tmp str).2 ≠ dest →
        Decimal str (confSetUint32Long dest tmp str).2.toNat) := by
  rw [utilStrToDecLong_eq hpos hle, confSetUint32Long_eq]
  refine ⟨?_, ?_, ?_, ?_⟩
  · constructor
    · intro h
      rcases hdec : utilStrToDec str maxBytes with - | v
      · rw [hdec] at h
        exact absurd h (show errInval ≠ 0 by decide)
      · exact ⟨v, (utilStrToDec_eq_some_iff hpos hle str v).mp hdec⟩
    · intro h
      obtain ⟨v, hv⟩ := h
      rw [(utilStrToDec_eq_some_iff hpos hle str v).mpr hv]
      rfl
  · intro v hv
    have hpow : (2 : ℤ) ^ (8 * maxBytes) ≤ 2 ^ 56 := pow_le_pow_right₀ (by decide) (by omega)
    rw [(utilStrToDec_eq_some_iff hpos hle str v).mpr hv]
    obtain ⟨-, hlow, hhigh⟩ := hv
    exact Int64.toInt_ofInt_of_le (by omega) (by omega)
  · intro h
    rcases hdec : utilStrToDec str maxBytes with - | v
    · rfl
    · rw [hdec] at h
      exact absurd rfl h
  · intro h
    rcases hset : confSetUint32 dest str with ret | dest'
    · rw [hset] at h
      exact absurd rfl h
    · rw [hset] at h
      exact confSetUint32_decimal hset h

theorem fortyTwo_accepted :
    ((utilStrToDecLong " +42".toList 7 4).1 = 0 ↔ ∃ v, Representable " +42".toList 4 v)
    ∧ (∀ v, Representable " +42".toList 4 v → (utilStrToDecLong " +42".toList 7 4).2.toInt = v)
    ∧ ((utilStrToDecLong " +42".toList 7 4).1 ≠ 0 → (utilStrToDecLong " +42".toList 7 4).2 = 7)
    ∧ ((confSetUint32Long 0 7 " +42".toList).2 ≠ 0 →
        Decimal " +42".toList (confSetUint32Long 0 7 " +42".toList).2.toNat) :=
  utilStrToDec_accepts_iff " +42".toList 7 7 0 (by decide) (by decide)

example : utilStrToDecLong " +42".toList 7 4 = (0, 42)
    ∧ utilStrToDecLong "4294967296".toList 7 4 = (errInval, 7)
    ∧ utilStrToDecLong "-1".toList 7 4 = (errInval, 7)
    ∧ utilStrToDecLong "-0".toList 7 4 = (0, 0) := by
  decide

end Meili.Conf
