/-
  Meili.Conf.Tokens — the EAL options.

  `conf_parse_dpdk_params` (`src/lib/conf/meili_conf.c`) takes the quotes off its string by
  writing a NUL over the second one and stepping over the first, and then walks through it
  with `strtok`.  Here it is embedded on the cells of the string; reading a cell behind the
  terminator and storing behind the last entry of `dpdk_argv` are undefined.

    • `confParseDpdkParamsMem_eq` — neither happens, and what comes out is what
      `confParseDpdkParams` makes of the string;
    • `tokenised_iff` — the words are all there, or there is an error, unless the entries
      are exactly `MAX_DPDK_ARGS`: the limit is tested behind the store.
-/
import Meili.Conf.Priority
import Meili.Lib.CString

namespace Meili.Conf

open Meili.Lib.CString

/-! ## §1. In memory. -/

/-- The quotes are taken off: the buffer, and where the string starts. -/
def stripQuotes (buf : List Char) : Option (List Char × ℕ) := do
  let first ← buf[0]?
  if first = '"' then
    let len ← strlen buf 0
    let last ← buf[len - 1]?
    if last = '"' then some (buf.set (len - 1) nul, 1) else some (buf, 0)
  else some (buf, 0)

/-- The loop of `conf_parse_dpdk_params`; `room` is the number of free entries of
`dpdk_argv`. -/
def dpdkArgsMem (conf : PlConf) (checkForRegexDev : Bool) (tok : Strtok) (room : ℕ) :
    Except Stop PlConf :=
  match tok.token with
  | none => .ok conf
  | some token =>
      match readStr tok.buf token with
      | none => .error .undefined
      | some dpdkArg =>
          match if checkForRegexDev then confExtractRegexPcieAddr conf dpdkArg else .ok conf with
          | .error ret => .error ret
          | .ok conf =>
              match room with
              -- the store would be behind the end of `dpdk_argv`
              | 0 => .error .undefined
              | room + 1 =>
                  let conf := { conf with dpdkArgv := conf.dpdkArgv ++ [dpdkArg] }
                  match strtok ' ' tok.buf tok.save with
                  | none => .error .undefined
                  | some tok =>
                      if maxDpdkArgs ≤ conf.dpdkArgv.length then .error (.err errNotsup)
                      else dpdkArgsMem conf (!checkForRegexDev && dpdkArg == ['-', 'a']) tok room

/-- `conf_parse_dpdk_params` on the cells of `params`. -/
def confParseDpdkParamsMem (conf : PlConf) (prgname : Str) (params : List Char) :
    Except Stop PlConf :=
  if conf.dpdkArgv ≠ [] then .ok conf
  else
    match stripQuotes params with
    | none => .error .undefined
    | some (buf, s) =>
        match strtok ' ' buf s with
        | none => .error .undefined
        | some tok =>
            dpdkArgsMem { conf with dpdkArgv := [prgname] } false tok (maxDpdkArgs - 1)

/-! ## §2. Nothing is read or written outside. -/

theorem stripQuotes_quote {cells : List Char} {len : ℕ} {d : Char}
    (hlen : strlen ('"' :: cells) 0 = some (len + 1)) (hlast : ('"' :: cells)[len]? = some d) :
    stripQuotes ('"' :: cells)
      = if d = '"' then some (('"' :: cells).set len nul, 1) else some ('"' :: cells, 0) := by
  unfold stripQuotes
  rw [hlen, List.getElem?_cons_zero]
  simp only [Option.bind_eq_bind, Option.bind_some, if_true, Nat.add_sub_cancel, hlast]

theorem stripQuotes_eq {params : Str} (h : nul ∉ params) :
    ∃ buf s, stripQuotes (params ++ [nul]) = some (buf, s) ∧ Holds buf s (unquote params) := by
  have hparams := holds_zero h
  have hlen := hparams.strlen_eq
  rcases params with - | ⟨c, params⟩
  · exact ⟨[nul], 0, rfl, hparams⟩
  by_cases hc : c = '"'
  · subst hc
    rcases List.eq_nil_or_concat params with rfl | ⟨inner, d, rfl⟩
    · -- a lone quote: the string starts behind the NUL that took its place
      exact ⟨[nul, nul], 1, rfl, List.not_mem_nil, [], rfl⟩
    · rw [List.concat_eq_append] at h hparams hlen ⊢
      rw [List.length_cons, List.length_append] at hlen
      have hlast : ('"' :: (inner ++ [d]) ++ [nul])[inner.length + 1]? = some d := by simp
      have hstrip := stripQuotes_quote hlen hlast
      have hget : ('"' :: (inner ++ [d])).getLast? = some d := by
        rw [← List.cons_append, List.getLast?_concat]
      by_cases hd : d = '"'
      · subst hd
        have hinner : nul ∉ inner := fun hmem => h (by simp [hmem])
        have hunquote : unquote ('"' :: (inner ++ ['"'])) = inner := by
          unfold unquote
          rw [if_pos ⟨rfl, hget⟩, List.tail_cons, List.dropLast_concat]
        rw [if_pos rfl] at hstrip
        refine ⟨_, _, hstrip, ?_⟩
        rw [hunquote]
        exact ⟨hinner, [nul], by simp⟩
      · have hunquote : unquote ('"' :: (inner ++ [d])) = '"' :: (inner ++ [d]) := by
          refine if_neg ?_
          rw [hget, Option.some.injEq]
          exact fun hquotes => hd hquotes.2
        rw [if_neg hd] at hstrip
        refine ⟨_, _, hstrip, ?_⟩
        rwa [hunquote]
  · refine ⟨c :: params ++ [nul], 0, ?_, ?_⟩
    · simp [stripQuotes, hc]
    · have hunquote : unquote (c :: params) = c :: params := if_neg (by simp [hc])
      rwa [hunquote]

theorem strtok_isSome {buf : List Char} {s : ℕ} {str : Str} (h : Holds buf s str) :
    ∃ tok, strtok ' ' buf s = some tok := by
  rcases hwords : words ' ' str with - | ⟨word, rest⟩
  · exact ⟨_, strtok_eq_none (by decide) h hwords⟩
  · obtain ⟨buf', save, token, -, htok, -⟩ := strtok_eq_some (by decide) h hwords
    exact ⟨_, htok⟩

/-- **The loop** on the cells is the loop on the words. -/
theorem dpdkArgsMem_eq {room : ℕ} {conf : PlConf} {check : Bool} {buf : List Char} {s : ℕ}
    {rest : Str} (hroom : conf.dpdkArgv.length + room = maxDpdkArgs) (hpos : 0 < room)
    (hrest : Holds buf s rest) {tok : Strtok} (htok : strtok ' ' buf s = some tok) :
    dpdkArgsMem conf check tok room = dpdkArgs conf check (words ' ' rest) := by
  induction room generalizing conf check buf s rest tok with
  | zero => exact absurd hpos (lt_irrefl 0)
  | succ room ih =>
      rcases hwords : words ' ' rest with - | ⟨word, behind⟩
      · rw [strtok_eq_none (by decide) hrest hwords, Option.some.injEq] at htok
        subst htok
        rfl
      obtain ⟨buf', save, token, str', htok', hword, hstr', rfl⟩ :=
        strtok_eq_some (by decide) hrest hwords
      obtain rfl := Option.some.inj (htok'.symm.trans htok)
      obtain ⟨next, hnext⟩ := strtok_isSome hstr'
      unfold dpdkArgsMem dpdkArgs
      dsimp only
      rw [hword.readStr_eq, hnext]
      cases hc : (if check = true then confExtractRegexPcieAddr conf word else .ok conf) with
      | error ret =>
          dsimp only
          rw [hc]
      | ok c =>
          have hargv : c.dpdkArgv = conf.dpdkArgv := by
            split at hc
            · obtain ⟨pcie, rfl⟩ := confExtractRegexPcieAddr_frame hc
              rfl
            · cases hc
              rfl
          dsimp only
          rw [hc]
          dsimp only
          by_cases hfull : maxDpdkArgs ≤ (c.dpdkArgv ++ [word]).length
          · rw [if_pos hfull, if_pos hfull]
          · rw [if_neg hfull, if_neg hfull]
            rw [List.length_append, hargv] at hfull
            refine ih ?_ (by simp at hfull; omega) hstr' hnext
            rw [List.length_append, hargv]
            simp only [List.length_singleton]
            omega

theorem confParseDpdkParamsMem_eq {params : Str} (h : nul ∉ params) (conf : PlConf)
    (prgname : Str) :
    confParseDpdkParamsMem conf prgname (params ++ [nul])
      = confParseDpdkParams conf prgname params := by
  unfold confParseDpdkParamsMem confParseDpdkParams
  by_cases hargv : conf.dpdkArgv ≠ []
  · rw [if_pos hargv, if_pos hargv]
  obtain ⟨buf, s, hstrip, hholds⟩ := stripQuotes_eq h
  obtain ⟨tok, htok⟩ := strtok_isSome hholds
  rw [if_neg hargv, if_neg hargv, hstrip]
  dsimp only
  rw [htok]
  exact dpdkArgsMem_eq rfl (by decide) hholds htok

theorem confExtractRegexPcieAddr_ne_undefined (conf : PlConf) (pcie : Str) :
    confExtractRegexPcieAddr conf pcie ≠ .error .undefined := by
  unfold confExtractRegexPcieAddr
  dsimp only
  split
  · nofun
  · split
    · nofun
    · split <;> nofun

theorem dpdkArgs_ne_undefined {args : List Str} {conf : PlConf} {check : Bool} :
    dpdkArgs conf check args ≠ .error .undefined := by
  induction args generalizing conf check with
  | nil =>
      intro heq
      cases heq
  | cons arg args ih =>
      unfold dpdkArgs
      cases hc : (if check then confExtractRegexPcieAddr conf arg else .ok conf) with
      | error ret =>
          intro heq
          obtain rfl := Except.error.inj heq
          split at hc
          · exact confExtractRegexPcieAddr_ne_undefined _ _ hc
          · cases hc
      | ok c =>
          dsimp only
          split
          · intro heq
            cases heq
          · exact ih

/-- Nothing outside of the string or of `dpdk_argv` is touched. -/
theorem confParseDpdkParams_inBounds {params : Str} (h : nul ∉ params) (conf : PlConf)
    (prgname : Str) :
    confParseDpdkParamsMem conf prgname (params ++ [nul]) ≠ .error .undefined := by
  rw [confParseDpdkParamsMem_eq h]
  unfold confParseDpdkParams
  split
  · intro heq
    cases heq
  · exact dpdkArgs_ne_undefined

/-! ## §3. The entries. -/

/-- Behind each `-a` stands what can be an address. -/
def AddressesLong (args : List Str) : Prop :=
  args.IsChain fun arg pcie => arg = ['-', 'a'] → 3 ≤ (pcie.takeWhile (· ≠ ',')).length

instance (args : List Str) : Decidable (AddressesLong args) :=
  inferInstanceAs (Decidable (args.IsChain fun arg pcie =>
    arg = ['-', 'a'] → 3 ≤ (pcie.takeWhile (· ≠ ',')).length))

theorem confExtractRegexPcieAddr_long {conf : PlConf} {pcie : Str}
    (h : 3 ≤ (pcie.takeWhile (· ≠ ',')).length) :
    ∃ conf', confExtractRegexPcieAddr conf pcie = .ok conf' ∧ conf'.dpdkArgv = conf.dpdkArgv := by
  unfold confExtractRegexPcieAddr
  dsimp only
  rw [if_neg (not_lt.mpr h)]
  split
  · exact ⟨conf, rfl, rfl⟩
  · split
    · exact ⟨_, rfl, rfl⟩
    · exact ⟨conf, rfl, rfl⟩

/-- **The loop** stores all words, or stops when `dpdk_argv` is full. -/
theorem dpdkArgs_eq {args : List Str} {conf : PlConf} {check : Bool}
    (haddr : AddressesLong (if check then ['-', 'a'] :: args else args))
    (hroom : conf.dpdkArgv.length < maxDpdkArgs) :
    (conf.dpdkArgv.length + args.length < maxDpdkArgs →
      ∃ conf', dpdkArgs conf check args = .ok conf' ∧ conf'.dpdkArgv = conf.dpdkArgv ++ args)
    ∧ (maxDpdkArgs ≤ conf.dpdkArgv.length + args.length →
      dpdkArgs conf check args = .error (.err errNotsup)) := by
  induction args generalizing conf check with
  | nil =>
      refine ⟨fun _ => ⟨conf, rfl, (List.append_nil _).symm⟩, fun h => ?_⟩
      exact absurd hroom (not_lt.mpr h)
  | cons arg args ih =>
      have hextract : ∃ c, (if check then confExtractRegexPcieAddr conf arg else .ok conf) = .ok c
          ∧ c.dpdkArgv = conf.dpdkArgv := by
        cases check with
        | false => exact ⟨conf, rfl, rfl⟩
        | true =>
            have hlong := (List.isChain_cons_cons.mp haddr).1 rfl
            exact confExtractRegexPcieAddr_long hlong
      obtain ⟨c, hc, hargv⟩ := hextract
      have hnext : AddressesLong
          (if !check && arg == ['-', 'a'] then ['-', 'a'] :: args else args) := by
        cases check with
        | true => exact List.IsChain.of_cons (List.isChain_cons_cons.mp haddr).2
        | false =>
            by_cases harg : arg = ['-', 'a']
            · subst harg
              exact haddr
            · have hfalse : (!false && arg == ['-', 'a']) = false := by simpa using harg
              rw [hfalse]
              exact List.IsChain.of_cons haddr
      have hlen : (c.dpdkArgv ++ [arg]).length = conf.dpdkArgv.length + 1 := by
        rw [List.length_append, hargv, List.length_singleton]
      unfold dpdkArgs
      rw [hc]
      dsimp only
      rw [hlen, List.length_cons]
      by_cases hfull : maxDpdkArgs ≤ conf.dpdkArgv.length + 1
      · rw [if_pos hfull]
        exact ⟨fun h => by omega, fun _ => rfl⟩
      · rw [if_neg hfull]
        obtain ⟨hfits, hover⟩ := @ih { c with dpdkArgv := c.dpdkArgv ++ [arg] } _ hnext
          (hlen ▸ Nat.lt_of_not_le hfull)
        rw [hlen] at hfits hover
        refine ⟨fun h => ?_, fun h => hover (by omega)⟩
        obtain ⟨conf', heq, hentries⟩ := hfits (by omega)
        refine ⟨conf', heq, ?_⟩
        rw [hentries, hargv, List.append_assoc, List.singleton_append]

/-- The program name, and the words of the string without its quotes. -/
def dpdkEntries (prgname params : Str) : List Str := prgname :: words ' ' (unquote params)

/-- The entries are there if there is room for them, and there is an error otherwise. -/
def Tokenised (conf : PlConf) (prgname params : Str) : Prop :=
  ((dpdkEntries prgname params).length ≤ maxDpdkArgs →
    ∃ conf', confParseDpdkParamsMem conf prgname (params ++ [nul]) = .ok conf'
      ∧ conf'.dpdkArgv = dpdkEntries prgname params)
  ∧ (maxDpdkArgs < (dpdkEntries prgname params).length →
    ∃ ret < 0, confParseDpdkParamsMem conf prgname (params ++ [nul]) = .error (.err ret))

/-- **When the words are taken exactly**: `MAX_DPDK_ARGS` entries have room and are
refused. -/
theorem tokenised_iff {params : Str} (hparams : nul ∉ params) {conf : PlConf}
    (hfresh : conf.dpdkArgv = []) (haddr : AddressesLong (words ' ' (unquote params)))
    (prgname : Str) :
    Tokenised conf prgname params ↔ (dpdkEntries prgname params).length ≠ maxDpdkArgs := by
  obtain ⟨hfits, hover⟩ := @dpdkArgs_eq (words ' ' (unquote params))
    { conf with dpdkArgv := [prgname] } false haddr (show 1 < maxDpdkArgs by decide)
  have hloop : confParseDpdkParamsMem conf prgname (params ++ [nul])
      = dpdkArgs { conf with dpdkArgv := [prgname] } false (words ' ' (unquote params)) := by
    rw [confParseDpdkParamsMem_eq hparams]
    exact if_neg (not_not.mpr hfresh)
  have hlen : (dpdkEntries prgname params).length = 1 + (words ' ' (unquote params)).length := by
    rw [Nat.add_comm]
    rfl
  unfold Tokenised
  rw [hloop, hlen]
  dsimp only [List.length_singleton] at hfits hover
  constructor
  · rintro ⟨hok, -⟩ heq
    obtain ⟨conf', hconf', -⟩ := hok heq.le
    rw [hover heq.ge] at hconf'
    cases hconf'
  · intro hne
    exact ⟨fun hle => hfits (lt_of_le_of_ne hle hne),
      fun hlt => ⟨errNotsup, by decide, hover hlt.le⟩⟩

/-- A string in quotes, with an address. -/
theorem quotedAddress_tokenised :
    Tokenised Parser.init.conf "meili".toList "\"-l 0-3 -a 03:00.0,class=regex\"".toList
      ↔ (dpdkEntries "meili".toList "\"-l 0-3 -a 03:00.0,class=regex\"".toList).length
          ≠ maxDpdkArgs :=
  tokenised_iff (by decide) rfl (by decide) "meili".toList

/-- Nineteen words. -/
def nineteenWords : Str := (List.replicate 19 ['x', ' ']).flatten

theorem nineteenWords_not_tokenised :
    ¬ Tokenised Parser.init.conf "meili".toList nineteenWords := by
  intro h
  have hentries : (dpdkEntries "meili".toList nineteenWords).length = maxDpdkArgs := by decide
  obtain ⟨conf', hconf', -⟩ := h.1 hentries.le
  have hrefused : confParseDpdkParamsMem Parser.init.conf "meili".toList (nineteenWords ++ [nul])
      = .error (.err errNotsup) := rfl
  rw [hrefused] at hconf'
  cases hconf'

end Meili.Conf
