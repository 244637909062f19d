/-
  Meili.Example.Sha1 — the compression function of `src/example/libs/sha/sha1.c`.

  `SHA1Transform` is unrolled: 80 macro calls in which the five working variables change places
  instead of being moved, and the message schedule is computed in the 16 words of the block
  itself, from words loaded in the byte order of the machine (`LITTLE_ENDIAN`).

    §1  the macros and the unrolled calls;
    §2  the round function of the standard, with a schedule of 80 words;
    §3  bitwise facts: `blk0` swaps the bytes, `R0` chooses, `R3` is the majority;
    §4  the schedule in place (`Scheduled`) and the variables in their new places (`Renamed`);
    §5  `sha1Transform_eq`: the unrolled function is the one of the standard.
-/
import Mathlib.Data.List.Basic
import Mathlib.Data.UInt
import Mathlib.Logic.Function.Basic
import Mathlib.Tactic.IntervalCases

namespace Meili.Example

/-! ## §1. The source. -/

/-- `rol(value, bits)`. -/
def rol (value bits : UInt32) : UInt32 := (value <<< bits) ||| (value >>> (32 - bits))

/-- `state[5]` of `SHA1_CTX`. -/
structure Sha1State where
  s0 : UInt32
  s1 : UInt32
  s2 : UInt32
  s3 : UInt32
  s4 : UInt32
  deriving Repr, DecidableEq

/-- The working variables `a` to `e`. -/
inductive Var where
  | a | b | c | d | e
  deriving Repr, DecidableEq

/-- The local variables of `SHA1Transform`: `a` to `e`, and `block->l`. -/
structure Work where
  var : Var → UInt32
  l : ℕ → UInt32

/-- A 32-bit load from bytes, on a little-endian machine. -/
def load32 (bytes : List UInt8) (p : ℕ) : UInt32 :=
  (bytes.getD p 0).toUInt32 ||| (bytes.getD (p + 1) 0).toUInt32 <<< 8
    ||| (bytes.getD (p + 2) 0).toUInt32 <<< 16 ||| (bytes.getD (p + 3) 0).toUInt32 <<< 24

/-- The value of `blk0(i)`. -/
def blk0 (l : ℕ → UInt32) (i : ℕ) : UInt32 :=
  (rol (l i) 24 &&& 0xFF00FF00) ||| (rol (l i) 8 &&& 0x00FF00FF)

/-- The value of `blk(i)`. -/
def blk (l : ℕ → UInt32) (i : ℕ) : UInt32 :=
  rol (l ((i + 13) &&& 15) ^^^ l ((i + 8) &&& 15) ^^^ l ((i + 2) &&& 15) ^^^ l (i &&& 15)) 1

/-- What the five macros share: `z += f(w,x,y) + block + k + rol(v,5); w = rol(w,30)`, where the
block word, `block`, has been stored in slot `j`. -/
def Work.round (r : Work) (f : UInt32 → UInt32 → UInt32 → UInt32) (k : UInt32)
    (v w x y z : Var) (j : ℕ) (block : UInt32) : Work :=
  let sum := r.var z + (f (r.var w) (r.var x) (r.var y) + block + k + rol (r.var v) 5)
  let var := Function.update r.var z sum
  { var := Function.update var w (rol (var w) 30), l := Function.update r.l j block }

/-- `R0(v,w,x,y,z,i)`. -/
def r0 (v w x y z : Var) (i : ℕ) (r : Work) : Work :=
  r.round (fun w x y => (w &&& (x ^^^ y)) ^^^ y) 0x5A827999 v w x y z i (blk0 r.l i)

/-- `R1(v,w,x,y,z,i)`. -/
def r1 (v w x y z : Var) (i : ℕ) (r : Work) : Work :=
  r.round (fun w x y => (w &&& (x ^^^ y)) ^^^ y) 0x5A827999 v w x y z (i &&& 15) (blk r.l i)

/-- `R2(v,w,x,y,z,i)`. -/
def r2 (v w x y z : Var) (i : ℕ) (r : Work) : Work :=
  r.round (fun w x y => w ^^^ x ^^^ y) 0x6ED9EBA1 v w x y z (i &&& 15) (blk r.l i)

/-- `R3(v,w,x,y,z,i)`. -/
def r3 (v w x y z : Var) (i : ℕ) (r : Work) : Work :=
  r.round (fun w x y => ((w ||| x) &&& y) ||| (w &&& x)) 0x8F1BBCDC v w x y z (i &&& 15)
    (blk r.l i)

/-- `R4(v,w,x,y,z,i)`. -/
def r4 (v w x y z : Var) (i : ℕ) (r : Work) : Work :=
  r.round (fun w x y => w ^^^ x ^^^ y) 0xCA62C1D6 v w x y z (i &&& 15) (blk r.l i)

/-- The 80 calls, as they stand in `SHA1Transform`. -/
def unrolled : List (Work → Work) :=
  [r0 .a .b .c .d .e 0, r0 .e .a .b .c .d 1, r0 .d .e .a .b .c 2, r0 .c .d .e .a .b 3,
   r0 .b .c .d .e .a 4, r0 .a .b .c .d .e 5, r0 .e .a .b .c .d 6, r0 .d .e .a .b .c 7,
   r0 .c .d .e .a .b 8, r0 .b .c .d .e .a 9, r0 .a .b .c .d .e 10, r0 .e .a .b .c .d 11,
   r0 .d .e .a .b .c 12, r0 .c .d .e .a .b 13, r0 .b .c .d .e .a 14, r0 .a .b .c .d .e 15,
   r1 .e .a .b .c .d 16, r1 .d .e .a .b .c 17, r1 .c .d .e .a .b 18, r1 .b .c .d .e .a 19,
   r2 .a .b .c .d .e 20, r2 .e .a .b .c .d 21, r2 .d .e .a .b .c 22, r2 .c .d .e .a .b 23,
   r2 .b .c .d .e .a 24, r2 .a .b .c .d .e 25, r2 .e .a .b .c .d 26, r2 .d .e .a .b .c 27,
   r2 .c .d .e .a .b 28, r2 .b .c .d .e .a 29, r2 .a .b .c .d .e 30, r2 .e .a .b .c .d 31,
   r2 .d .e .a .b .c 32, r2 .c .d .e .a .b 33, r2 .b .c .d .e .a 34, r2 .a .b .c .d .e 35,
   r2 .e .a .b .c .d 36, r2 .d .e .a .b .c 37, r2 .c .d .e .a .b 38, r2 .b .c .d .e .a 39,
   r3 .a .b .c .d .e 40, r3 .e .a .b .c .d 41, r3 .d .e .a .b .c 42, r3 .c .d .e .a .b 43,
   r3 .b .c .d .e .a 44, r3 .a .b .c .d .e 45, r3 .e .a .b .c .d 46, r3 .d .e .a .b .c 47,
   r3 .c .d .e .a .b 48, r3 .b .c .d .e .a 49, r3 .a .b .c .d .e 50, r3 .e .a .b .c .d 51,
   r3 .d .e .a .b .c 52, r3 .c .d .e .a .b 53, r3 .b .c .d .e .a 54, r3 .a .b .c .d .e 55,
   r3 .e .a .b .c .d 56, r3 .d .e .a .b .c 57, r3 .c .d .e .a .b 58, r3 .b .c .d .e .a 59,
   r4 .a .b .c .d .e 60, r4 .e .a .b .c .d 61, r4 .d .e .a .b .c 62, r4 .c .d .e .a .b 63,
   r4 .b .c .d .e .a 64, r4 .a .b .c .d .e 65, r4 .e .a .b .c .d 66, r4 .d .e .a .b .c 67,
   r4 .c .d .e .a .b 68, r4 .b .c .d .e .a 69, r4 .a .b .c .d .e 70, r4 .e .a .b .c .d 71,
   r4 .d .e .a .b .c 72, r4 .c .d .e .a .b 73, r4 .b .c .d .e .a 74, r4 .a .b .c .d .e 75,
   r4 .e .a .b .c .d 76, r4 .d .e .a .b .c 77, r4 .c .d .e .a .b 78, r4 .b .c .d .e .a 79]

/-- The working variables at the start, and the copy of the buffer. -/
def Work.start (state : Sha1State) (buffer : List UInt8) : Work where
  var
    | .a => state.s0
    | .b => state.s1
    | .c => state.s2
    | .d => state.s3
    | .e => state.s4
  l i := load32 buffer (4 * i)

/-- `SHA1Transform(state, buffer)`: the new `state`. -/
def sha1Transform (state : Sha1State) (buffer : List UInt8) : Sha1State :=
  let r := unrolled.foldl (fun r call => call r) (Work.start state buffer)
  { s0 := state.s0 + r.var .a
    s1 := state.s1 + r.var .b
    s2 := state.s2 + r.var .c
    s3 := state.s3 + r.var .d
    s4 := state.s4 + r.var .e }

/-! ## §2. The standard. -/

/-- Word `i` of a block, most significant byte first. -/
def wordBE (bytes : List UInt8) (i : ℕ) : UInt32 :=
  (bytes.getD (4 * i) 0).toUInt32 <<< 24 ||| (bytes.getD (4 * i + 1) 0).toUInt32 <<< 16
    ||| (bytes.getD (4 * i + 2) 0).toUInt32 <<< 8 ||| (bytes.getD (4 * i + 3) 0).toUInt32

/-- The message schedule. -/
def schedule (bytes : List UInt8) (t : ℕ) : UInt32 :=
  if t < 16 then wordBE bytes t
  else rol (schedule bytes (t - 3) ^^^ schedule bytes (t - 8) ^^^ schedule bytes (t - 14)
    ^^^ schedule bytes (t - 16)) 1

/-- The logical function of round `t`. -/
def logical (t : ℕ) (b c d : UInt32) : UInt32 :=
  if t < 20 then (b &&& c) ||| (~~~b &&& d)
  else if t < 40 then b ^^^ c ^^^ d
  else if t < 60 then (b &&& c) ||| (b &&& d) ||| (c &&& d)
  else b ^^^ c ^^^ d

/-- The constant of round `t`. -/
def constant (t : ℕ) : UInt32 :=
  if t < 20 then 0x5A827999
  else if t < 40 then 0x6ED9EBA1
  else if t < 60 then 0x8F1BBCDC
  else 0xCA62C1D6

/-- Round `t`. -/
def Sha1State.round (bytes : List UInt8) (s : Sha1State) (t : ℕ) : Sha1State where
  s0 := rol s.s0 5 + logical t s.s1 s.s2 s.s3 + s.s4 + constant t + schedule bytes t
  s1 := s.s0
  s2 := rol s.s1 30
  s3 := s.s2
  s4 := s.s3

/-- The first `t` rounds. -/
def Sha1State.rounds (s : Sha1State) (bytes : List UInt8) (t : ℕ) : Sha1State :=
  (List.range t).foldl (Sha1State.round bytes) s

/-- The compression function. -/
def compress (s : Sha1State) (bytes : List UInt8) : Sha1State :=
  let r := s.rounds bytes 80
  { s0 := s.s0 + r.s0
    s1 := s.s1 + r.s1
    s2 := s.s2 + r.s2
    s3 := s.s3 + r.s3
    s4 := s.s4 + r.s4 }

/-! ## §3. Bitwise facts. -/

/-- Two words with the same bits. -/
theorem eq_of_bits {x y : UInt32} (h : ∀ i, (hi : i < 32) → x.toBitVec[i] = y.toBitVec[i]) :
    x = y :=
  UInt32.eq_of_toBitVec_eq (BitVec.eq_of_getElem_eq fun i hi => h i hi)

/-- `blk0` swaps the bytes of the word that was loaded. -/
theorem blk0_load32 (l : ℕ → UInt32) (bytes : List UInt8) {i : ℕ}
    (h : l i = load32 bytes (4 * i)) : blk0 l i = wordBE bytes i := by
  unfold blk0 wordBE
  rw [h]
  unfold load32 rol
  generalize bytes.getD (4 * i) 0 = b0
  generalize bytes.getD (4 * i + 1) 0 = b1
  generalize bytes.getD (4 * i + 2) 0 = b2
  generalize bytes.getD (4 * i + 3) 0 = b3
  -- bit by bit: each bit of the result is one bit of one byte
  apply eq_of_bits
  intro n hn
  interval_cases n <;> simp

/-- The function of `R0` and `R1` chooses between `x` and `y`. -/
theorem choose_eq (w x y : UInt32) : (w &&& (x ^^^ y)) ^^^ y = (w &&& x) ||| (~~~w &&& y) := by
  apply eq_of_bits
  intro i hi
  simp only [UInt32.toBitVec_and, UInt32.toBitVec_xor, UInt32.toBitVec_or, UInt32.toBitVec_not,
    BitVec.getElem_and, BitVec.getElem_xor, BitVec.getElem_or, BitVec.getElem_not]
  cases w.toBitVec[i] <;> simp

/-- The function of `R3` is the majority. -/
theorem majority_eq (w x y : UInt32) :
    ((w ||| x) &&& y) ||| (w &&& x) = (w &&& x) ||| (w &&& y) ||| (x &&& y) := by
  apply eq_of_bits
  intro i hi
  simp only [UInt32.toBitVec_and, UInt32.toBitVec_or, BitVec.getElem_and, BitVec.getElem_or]
  cases w.toBitVec[i] <;> cases x.toBitVec[i] <;> simp

/-! ## §4. Variables that change places, and a schedule in place. -/

/-- The variables in turn. -/
def Var.nth (n : ℕ) : Var :=
  match n % 5 with
  | 0 => .a
  | 1 => .b
  | 2 => .c
  | 3 => .d
  | _ => .e

/-- The variable that stands for the `k`-th one after `t` rounds. -/
def Var.after (t k : ℕ) : Var := Var.nth (k + 4 * t)

theorem Var.after_succ (t k : ℕ) : Var.after (t + 1) (k + 1) = Var.after t k := by
  unfold Var.after Var.nth
  rw [show k + 1 + 4 * (t + 1) = k + 4 * t + 5 by omega, Nat.add_mod_right]

theorem Var.after_succ_zero (t : ℕ) : Var.after (t + 1) 0 = Var.after t 4 := by
  unfold Var.after
  congr 1
  omega

/-- Five different variables. -/
theorem Var.after_ne (t : ℕ) {j k : ℕ} (hj : j < 5) (hk : k < 5) (hne : j ≠ k) :
    Var.after t j ≠ Var.after t k := by
  have hnth : ∀ m < 5, ∀ n < 5, Var.nth m = Var.nth n → m = n := by decide
  have hmod : ∀ n, Var.nth (n % 5) = Var.nth n := by
    intro n
    unfold Var.nth
    rw [Nat.mod_mod]
  intro h
  unfold Var.after at h
  rw [← hmod (j + 4 * t), ← hmod (k + 4 * t)] at h
  have heq := hnth _ (Nat.mod_lt _ (by omega)) _ (Nat.mod_lt _ (by omega)) h
  omega

section Round

variable {r : Work} {f : UInt32 → UInt32 → UInt32 → UInt32} {k m : UInt32} {u v w x y z : Var}
  {j : ℕ}

theorem Work.round_sum (h : z ≠ w) : (r.round f k v w x y z j m).var z
    = r.var z + (f (r.var w) (r.var x) (r.var y) + m + k + rol (r.var v) 5) := by
  show Function.update (Function.update r.var z _) w _ z = _
  rw [Function.update_of_ne h, Function.update_self]

theorem Work.round_rotated (h : w ≠ z) :
    (r.round f k v w x y z j m).var w = rol (r.var w) 30 := by
  show Function.update (Function.update r.var z _) w _ w = _
  rw [Function.update_self, Function.update_of_ne h]

theorem Work.round_kept (hz : u ≠ z) (hw : u ≠ w) :
    (r.round f k v w x y z j m).var u = r.var u := by
  show Function.update (Function.update r.var z _) w _ u = _
  rw [Function.update_of_ne hw, Function.update_of_ne hz]

end Round

/-- Call `t` of the source, by its number. -/
def callOf (t : ℕ) : Work → Work :=
  let call := if t < 16 then r0 else if t < 20 then r1 else if t < 40 then r2
    else if t < 60 then r3 else r4
  call (.after t 0) (.after t 1) (.after t 2) (.after t 3) (.after t 4) t

theorem unrolled_eq : unrolled = (List.range 80).map callOf := rfl

/-- After `t` rounds the working variables are those of the standard, in other places, and
the block holds the last 16 words of the schedule, or what was loaded. -/
structure Follows (bytes : List UInt8) (t : ℕ) (s : Sha1State) (r : Work) : Prop where
  s0 : r.var (.after t 0) = s.s0
  s1 : r.var (.after t 1) = s.s1
  s2 : r.var (.after t 2) = s.s2
  s3 : r.var (.after t 3) = s.s3
  s4 : r.var (.after t 4) = s.s4
  done : ∀ i, i < t → t ≤ i + 16 → r.l (i % 16) = schedule bytes i
  loaded : ∀ i, t ≤ i → i < 16 → r.l i = load32 bytes (4 * i)

namespace Follows

variable {bytes : List UInt8} {t : ℕ} {s : Sha1State} {r : Work}

/-- A round with the function, the constant and the word of the standard. -/
theorem round (h : Follows bytes t s r) {f : UInt32 → UInt32 → UInt32 → UInt32} {k m : UInt32}
    {j : ℕ} (hf : ∀ w x y, f w x y = logical t w x y) (hk : k = constant t)
    (hj : j = t % 16) (hm : m = schedule bytes t) :
    Follows bytes (t + 1) (s.round bytes t)
      (r.round f k (.after t 0) (.after t 1) (.after t 2) (.after t 3) (.after t 4) j m) where
  s0 := by
    rw [Var.after_succ_zero, Work.round_sum (Var.after_ne t (by omega) (by omega) (by omega)),
      hf, hk, hm, h.s0, h.s1, h.s2, h.s3, h.s4]
    show _ = rol s.s0 5 + logical t s.s1 s.s2 s.s3 + s.s4 + constant t + schedule bytes t
    ac_rfl
  s1 := by
    rw [Var.after_succ t 0, Work.round_kept (Var.after_ne t (by omega) (by omega) (by omega))
      (Var.after_ne t (by omega) (by omega) (by omega)), h.s0]
    rfl
  s2 := by
    rw [Var.after_succ t 1, Work.round_rotated (Var.after_ne t (by omega) (by omega) (by omega)),
      h.s1]
    rfl
  s3 := by
    rw [Var.after_succ t 2, Work.round_kept (Var.after_ne t (by omega) (by omega) (by omega))
      (Var.after_ne t (by omega) (by omega) (by omega)), h.s2]
    rfl
  s4 := by
    rw [Var.after_succ t 3, Work.round_kept (Var.after_ne t (by omega) (by omega) (by omega))
      (Var.after_ne t (by omega) (by omega) (by omega)), h.s3]
    rfl
  done := by
    intro i hi hge
    show Function.update r.l j m (i % 16) = _
    rw [hj, hm]
    rcases Nat.lt_or_ge i t with hlt | hge'
    · -- the slot of a later word is not the one written
      rw [Function.update_of_ne (by omega), h.done i hlt (by omega)]
    · obtain rfl : i = t := by omega
      rw [Function.update_self]
  loaded := by
    intro i hi hlt
    show Function.update r.l j m i = _
    rw [hj, Function.update_of_ne (by rw [Nat.mod_eq_of_lt (by omega)]; omega),
      h.loaded i (by omega) hlt]

/-- The word of the first 16 rounds. -/
theorem blk0_eq (h : Follows bytes t s r) (ht : t < 16) : blk0 r.l t = schedule bytes t := by
  rw [blk0_load32 r.l bytes (h.loaded t (le_refl t) ht), schedule, if_pos ht]

/-- The word of a later round. -/
theorem blk_eq (h : Follows bytes t s r) (ht : 16 ≤ t) : blk r.l t = schedule bytes t := by
  have hslot : ∀ i, i < t → t ≤ i + 16 → ∀ j, j % 16 = i % 16 →
      r.l (j &&& 15) = schedule bytes i := by
    intro i hi hge j hj
    rw [Nat.and_two_pow_sub_one_eq_mod j 4, show 2 ^ 4 = 16 from rfl, hj, h.done i hi hge]
  unfold blk
  rw [hslot (t - 3) (by omega) (by omega) _ (by omega),
    hslot (t - 8) (by omega) (by omega) _ (by omega),
    hslot (t - 14) (by omega) (by omega) _ (by omega),
    hslot (t - 16) (by omega) (by omega) _ (by omega), schedule.eq_def bytes t,
    if_neg (by omega)]

/-- A call of the source is a round of the standard. -/
theorem call (h : Follows bytes t s r) :
    Follows bytes (t + 1) (s.round bytes t) (callOf t r) := by
  have hslot : t &&& 15 = t % 16 := Nat.and_two_pow_sub_one_eq_mod t 4
  unfold callOf
  by_cases h16 : t < 16
  · simp only [if_pos h16]
    refine h.round (fun w x y => ?_) ?_ (Nat.mod_eq_of_lt h16).symm (h.blk0_eq h16)
    · rw [choose_eq, logical, if_pos (by omega)]
    · rw [constant, if_pos (by omega)]
  have hblk := h.blk_eq (Nat.le_of_not_lt h16)
  by_cases h20 : t < 20
  · simp only [if_neg h16, if_pos h20]
    refine h.round (fun w x y => ?_) ?_ hslot hblk
    · rw [choose_eq, logical, if_pos h20]
    · rw [constant, if_pos h20]
  by_cases h40 : t < 40
  · simp only [if_neg h16, if_neg h20, if_pos h40]
    refine h.round (fun w x y => ?_) ?_ hslot hblk
    · rw [logical, if_neg h20, if_pos h40]
    · rw [constant, if_neg h20, if_pos h40]
  by_cases h60 : t < 60
  · simp only [if_neg h16, if_neg h20, if_neg h40, if_pos h60]
    refine h.round (fun w x y => ?_) ?_ hslot hblk
    · rw [majority_eq, logical, if_neg h20, if_neg h40, if_pos h60]
    · rw [constant, if_neg h20, if_neg h40, if_pos h60]
  · simp only [if_neg h16, if_neg h20, if_neg h40, if_neg h60]
    refine h.round (fun w x y => ?_) ?_ hslot hblk
    · rw [logical, if_neg h20, if_neg h40, if_neg h60]
    · rw [constant, if_neg h20, if_neg h40, if_neg h60]

theorem start (bytes : List UInt8) (s : Sha1State) :
    Follows bytes 0 s (Work.start s bytes) where
  s0 := rfl
  s1 := rfl
  s2 := rfl
  s3 := rfl
  s4 := rfl
  done := fun i hi => absurd hi (Nat.not_lt_zero i)
  loaded := fun _ _ _ => rfl

/-- The first calls are the first rounds. -/
theorem calls (bytes : List UInt8) (s : Sha1State) (n : ℕ) :
    Follows bytes n (s.rounds bytes n)
      (((List.range n).map callOf).foldl (fun r call => call r) (Work.start s bytes)) := by
  induction n with
  | zero => exact start bytes s
  | succ n ih =>
      rw [List.range_succ, List.map_append, List.foldl_append]
      unfold Sha1State.rounds
      rw [List.range_succ, List.foldl_append]
      exact ih.call

end Follows

/-! ## §5. The unrolled function. -/

/-- **`SHA1Transform` is the compression function of the standard**, for every state and
every block. -/
theorem sha1Transform_eq (state : Sha1State) (buffer : List UInt8) :
    sha1Transform state buffer = compress state buffer := by
  have h := Follows.calls buffer state 80
  rw [← unrolled_eq] at h
  -- 80 rounds bring every variable back to its place
  unfold sha1Transform compress
  simp only [← h.s0, ← h.s1, ← h.s2, ← h.s3, ← h.s4]
  rfl

end Meili.Example
