/-
  Meili.Conf.Priority — the first value of an option wins.

  Every field has its own notion of "already set": not zero, not `NULL`, not
  unknown, true.  Each of them is a register that a pass fills when it is empty
  (`Wrote` says what one option can do), so after both passes it holds the first
  value of the command line and, behind it, the config file.

  The one exception is a compiled rules file: one that the config file names
  counts for nothing when the command line names a file of raw rules.
-/
import Meili.Conf.Options
import Meili.Lib.FirstWins

namespace Meili.Conf

open Meili.Lib

/-! ## §1. What was given. -/

/-- The arguments given with an option, in order. -/
def values (t : Opt) (l : List Given) : List Str := (l.filter fun o => optOf o.1 = t).map (·.2)

/-- A number that is not zero. -/
def nonzeroOf (optarg : Str) : Option UInt32 :=
  ((utilStrToDec optarg 4).map fun n => UInt32.ofNat n.toNat).filter (· ≠ 0)

/-- The options on the command line. -/
def cmdOpts (env : Env) (prgname : Str) (argv : List Str) : List Given :=
  env.getoptLong (prgname :: argv)

/-- The options in a config file, as far as it is read. -/
def fileOpts (env : Env) (prgname path : Str) : List Given :=
  match env.fopen path with
  | none => []
  | some content =>
      match confFileArgs env [] (fgets [] content) with
      | .error _ => []
      | .ok confArgv => env.getoptLong (prgname :: confArgv)

/-- The config file: the first one named on the command line, or the default. -/
def configFile (cmd : List Given) : Str :=
  ((values .configFile cmd).head?.map unquote).getD "runtime.conf".toList

theorem values_append (t : Opt) (l l' : List Given) :
    values t (l ++ l') = values t l ++ values t l' := by
  unfold values
  rw [List.filter_append, List.map_append]

/-- The first value of an option, found in the list of all options. -/
theorem findSome?_values {α : Type} (t : Opt) (g : Str → Option α) (l : List Given) :
    l.findSome? (fun o => if optOf o.1 = t then g o.2 else none) = (values t l).findSome? g := by
  induction l with
  | nil => rfl
  | cons o l ih =>
      unfold values at ih ⊢
      rw [List.findSome?_cons, List.filter_cons]
      by_cases h : optOf o.1 = t
      · rw [if_pos h, if_pos (by simpa using h), List.map_cons, List.findSome?_cons, ih]
      · rw [if_neg h, if_neg (by simpa using h), ih]

/-- The first value, where every value counts. -/
theorem findSome?_some {α β : Type} (g : α → β) (l : List α) :
    l.findSome? (fun v => some (g v)) = l.head?.map g := by
  cases l with
  | nil => rfl
  | cons v l => rfl

/-! ## §2. What an option does. -/

/-- From `x` to `x'`, option `t` with argument `v` was processed. -/
inductive Wrote (rawRuleCmdLine : Bool) (x : Parser) : Opt → Str → Parser → Prop
  | configFile (v : Str) (s : Option Str) : confSetString x.confFile v = .ok s →
      Wrote rawRuleCmdLine x .configFile v { x with confFile := s }
  | dpdkEal (v : Str) (argv : List Str) (pcie : Option Str) :
      Wrote rawRuleCmdLine x .dpdkEal v
        { x with conf := { x.conf with dpdkArgv := argv, regexPcie := pcie } }
  | regexDevKept (v : Str) : x.conf.regexDevType ≠ .unknown →
      Wrote rawRuleCmdLine x .regexDev v x
  | regexDev (v : Str) (d : RegexDev) : x.conf.regexDevType = .unknown → regexDevOf v = some d →
      Wrote rawRuleCmdLine x .regexDev v { x with conf := { x.conf with regexDevType := d } }
  | inputModeKept (v : Str) : x.conf.inputMode ≠ .unknown →
      Wrote rawRuleCmdLine x .inputMode v x
  | inputMode (v : Str) (m : InputType) : x.conf.inputMode = .unknown → inputModeOf v = some m →
      Wrote rawRuleCmdLine x .inputMode v { x with conf := { x.conf with inputMode := m } }
  | num (f : NumField) (v : Str) (n : UInt32) : confSetUint32 (x.conf.num f) v = .ok n →
      Wrote rawRuleCmdLine x (.num f) v
        { x with conf := { x.conf with num := Function.update x.conf.num f n } }
  | strKept (v : Str) : rawRuleCmdLine = true →
      Wrote rawRuleCmdLine x (.str .compiledRulesFile) v x
  | str (f : StrField) (v : Str) (s : Option Str) :
      ¬ (f = .compiledRulesFile ∧ rawRuleCmdLine = true) → confSetString (x.conf.str f) v = .ok s →
      Wrote rawRuleCmdLine x (.str f) v
        { x with conf := { x.conf with str := Function.update x.conf.str f s } }
  | flag (f : FlagField) (v : Str) : Wrote rawRuleCmdLine x (.flag f) v
      { x with conf := { x.conf with flag := Function.update x.conf.flag f true } }

theorem confExtractRegexPcieAddr_frame {conf conf' : PlConf} {dpdkPcie : Str}
    (h : confExtractRegexPcieAddr conf dpdkPcie = .ok conf') :
    ∃ pcie, conf' = { conf with regexPcie := pcie } := by
  unfold confExtractRegexPcieAddr at h
  dsimp only at h
  split at h
  · cases h
    exact ⟨conf.regexPcie, rfl⟩
  · split at h
    · cases h
    · split at h
      · cases h
        exact ⟨_, rfl⟩
      · cases h
        exact ⟨conf.regexPcie, rfl⟩

theorem dpdkArgs_frame {conf conf' : PlConf} {check : Bool} {args : List Str}
    (h : dpdkArgs conf check args = .ok conf') :
    ∃ argv pcie, conf' = { conf with dpdkArgv := argv, regexPcie := pcie } := by
  induction args generalizing conf check with
  | nil =>
      cases h
      exact ⟨conf'.dpdkArgv, conf'.regexPcie, rfl⟩
  | cons arg args ih =>
      unfold dpdkArgs at h
      cases hc : (if check then confExtractRegexPcieAddr conf arg else .ok conf) with
      | error e =>
          rw [hc] at h
          cases h
      | ok c =>
          rw [hc] at h
          have hframe : ∃ pcie, c = { conf with regexPcie := pcie } := by
            split at hc
            · exact confExtractRegexPcieAddr_frame hc
            · cases hc
              exact ⟨conf.regexPcie, rfl⟩
          obtain ⟨pcie, rfl⟩ := hframe
          dsimp only at h
          split at h
          · cases h
          · obtain ⟨argv, pcie', rfl⟩ := ih h
            exact ⟨argv, pcie', rfl⟩

/-- The EAL parameters are apart from all other fields. -/
theorem confParseDpdkParams_frame {conf conf' : PlConf} {prgname params : Str}
    (h : confParseDpdkParams conf prgname params = .ok conf') :
    ∃ argv pcie, conf' = { conf with dpdkArgv := argv, regexPcie := pcie } := by
  unfold confParseDpdkParams at h
  split at h
  · cases h
    exact ⟨conf.dpdkArgv, conf.regexPcie, rfl⟩
  · obtain ⟨argv, pcie, rfl⟩ := dpdkArgs_frame h
    exact ⟨argv, pcie, rfl⟩

/-- **One option**, when it is accepted. -/
theorem Parser.parseOpt_wrote {rawRuleCmdLine : Bool} {prgname : Str} {x x' : Parser} {o : Given}
    (h : x.parseOpt rawRuleCmdLine prgname o = .ok x') :
    Wrote rawRuleCmdLine x (optOf o.1) o.2 x' := by
  unfold Parser.parseOpt at h
  cases hopt : optOf o.1 with
  | configFile =>
      rw [hopt] at h
      cases hs : confSetString x.confFile o.2 with
      | error e =>
          simp only [hs] at h
          cases h
      | ok s =>
          simp only [hs] at h
          cases h
          exact .configFile o.2 s hs
  | dpdkEal =>
      rw [hopt] at h
      cases hs : confParseDpdkParams x.conf prgname o.2 with
      | error e =>
          simp only [hs] at h
          cases h
      | ok c =>
          simp only [hs] at h
          cases h
          obtain ⟨argv, pcie, rfl⟩ := confParseDpdkParams_frame hs
          exact .dpdkEal o.2 argv pcie
  | regexDev =>
      rw [hopt] at h
      dsimp only at h
      split at h
      next hset =>
        cases h
        exact .regexDevKept o.2 hset
      next hunset =>
        split at h
        next d hd =>
          cases h
          exact .regexDev o.2 d (not_not.mp hunset) hd
        next => cases h
  | inputMode =>
      rw [hopt] at h
      dsimp only at h
      split at h
      next hset =>
        cases h
        exact .inputModeKept o.2 hset
      next hunset =>
        split at h
        next m hm =>
          cases h
          exact .inputMode o.2 m (not_not.mp hunset) hm
        next => cases h
  | help =>
      rw [hopt] at h
      cases h
  | version =>
      rw [hopt] at h
      cases h
  | other =>
      rw [hopt] at h
      cases h
  | num f =>
      rw [hopt] at h
      cases hn : confSetUint32 (x.conf.num f) o.2 with
      | error e =>
          simp only [hn] at h
          cases h
      | ok n =>
          simp only [hn] at h
          cases h
          exact .num f o.2 n hn
  | str f =>
      rw [hopt] at h
      dsimp only at h
      split at h
      next hraw =>
        cases h
        obtain ⟨rfl, hraw⟩ := hraw
        exact .strKept o.2 hraw
      next hraw =>
        cases hs : confSetString (x.conf.str f) o.2 with
        | error e =>
            rw [hs] at h
            cases h
        | ok s =>
            rw [hs] at h
            cases h
            exact .str f o.2 s hraw hs
  | flag f =>
      rw [hopt] at h
      cases h
      exact .flag f o.2

/-! ## §3. Registers. -/

/-- A number that is set. -/
def nz (n : UInt32) : Option UInt32 := if n = 0 then none else some n

/-- A flag that is set. -/
def raised (b : Bool) : Option Unit := if b then some () else none

/-- The device or the mode, as far as it is known. -/
def known {β : Type} [DecidableEq β] (unknown b : β) : Option (Option β) :=
  if b = unknown then none else some (some b)

/-- What a string field takes from a value. -/
def strOf (rawRuleCmdLine : Bool) (f : StrField) (v : Str) : Option Str :=
  if f = .compiledRulesFile ∧ rawRuleCmdLine = true then none else some (unquote v)

theorem strOf_eq {rawRuleCmdLine : Bool} {f : StrField} {v : Str}
    (h : ¬ (f = .compiledRulesFile ∧ rawRuleCmdLine = true)) :
    strOf rawRuleCmdLine f v = some (unquote v) :=
  if_neg h

theorem strOf_raw (v : Str) : strOf true .compiledRulesFile v = none := if_pos ⟨rfl, rfl⟩

theorem confSetUint32_or {dest n : UInt32} {v : Str} (h : confSetUint32 dest v = .ok n) :
    nz n = (nz dest).or (nonzeroOf v) := by
  unfold confSetUint32 at h
  unfold nz nonzeroOf
  split at h
  next hset =>
    cases h
    rw [if_neg hset, Option.some_or]
  next hunset =>
    rw [if_pos (not_not.mp hunset), Option.none_or]
    cases hdec : utilStrToDec v 4 with
    | none =>
        rw [hdec] at h
        cases h
    | some tmp =>
        rw [hdec] at h
        dsimp only at h
        split at h
        next hzero =>
          -- a zero leaves the field as it is
          cases h
          rw [if_pos (not_not.mp hunset), hzero]
          rfl
        next hpos =>
          cases h
          rw [Option.map_some]
          by_cases hn : UInt32.ofNat tmp.toNat = 0
          · rw [if_pos hn, hn]
            rfl
          · rw [if_neg hn, Option.filter_some_pos (by simpa using hn)]

theorem confSetString_or {dest s : Option Str} {v : Str} (h : confSetString dest v = .ok s) :
    s = dest.or (some (unquote v)) := by
  unfold confSetString at h
  cases dest with
  | some d =>
      cases h
      rfl
  | none =>
      rw [if_neg (by simp)] at h
      cases h
      rfl

theorem regexDevOf_ne {v : Str} {d : RegexDev} (h : regexDevOf v = some d) : d ≠ .unknown := by
  unfold regexDevOf at h
  split at h
  · cases h
    decide
  · split at h
    · cases h
      decide
    · split at h
      · cases h
        decide
      · cases h

theorem inputModeOf_ne {v : Str} {m : InputType} (h : inputModeOf v = some m) :
    m ≠ .unknown := by
  unfold inputModeOf at h
  split at h
  · cases h
    decide
  · split at h
    · cases h
      decide
    · split at h
      · cases h
        decide
      · split at h
        · cases h
          decide
        · split at h
          · cases h
            decide
          · cases h

section Registers

variable {rawRuleCmdLine : Bool} {x x' : Parser} {t : Opt} {v : Str}

theorem Wrote.num_or (h : Wrote rawRuleCmdLine x t v x') (f : NumField) :
    nz (x'.conf.num f) = (nz (x.conf.num f)).or (if t = .num f then nonzeroOf v else none) := by
  cases h with
  | num g v n hn =>
      by_cases hg : g = f
      · subst hg
        rw [if_pos rfl]
        dsimp only
        rw [Function.update_self]
        exact confSetUint32_or hn
      · rw [if_neg (by simpa using hg), Option.or_none]
        dsimp only
        rw [Function.update_of_ne (Ne.symm hg)]
  | _ => rw [if_neg (by simp), Option.or_none]

theorem Wrote.str_or (h : Wrote rawRuleCmdLine x t v x') (f : StrField) :
    x'.conf.str f = (x.conf.str f).or (if t = .str f then strOf rawRuleCmdLine f v else none) := by
  cases h with
  | strKept v hraw =>
      by_cases hf : StrField.compiledRulesFile = f
      · subst hf
        rw [if_pos rfl]
        unfold strOf
        rw [if_pos ⟨rfl, hraw⟩, Option.or_none]
      · rw [if_neg (by simpa using hf), Option.or_none]
  | str g v s hraw hs =>
      by_cases hg : g = f
      · subst hg
        rw [if_pos rfl]
        unfold strOf
        rw [if_neg hraw]
        dsimp only
        rw [Function.update_self]
        exact confSetString_or hs
      · rw [if_neg (by simpa using hg), Option.or_none]
        dsimp only
        rw [Function.update_of_ne (Ne.symm hg)]
  | _ => rw [if_neg (by simp), Option.or_none]

theorem Wrote.flag_or (h : Wrote rawRuleCmdLine x t v x') (f : FlagField) :
    raised (x'.conf.flag f)
      = (raised (x.conf.flag f)).or (if t = .flag f then some () else none) := by
  cases h with
  | flag g v =>
      by_cases hg : g = f
      · subst hg
        rw [if_pos rfl]
        dsimp only
        rw [Function.update_self]
        cases x.conf.flag g with
        | true => rfl
        | false => rfl
      · rw [if_neg (by simpa using hg), Option.or_none]
        dsimp only
        rw [Function.update_of_ne (Ne.symm hg)]
  | _ => rw [if_neg (by simp), Option.or_none]

theorem Wrote.regexDev_or (h : Wrote rawRuleCmdLine x t v x') :
    known .unknown x'.conf.regexDevType = (known .unknown x.conf.regexDevType).or
      (if t = .regexDev then some (regexDevOf v) else none) := by
  cases h with
  | regexDevKept v hset =>
      unfold known
      rw [if_neg hset, Option.some_or]
  | regexDev v d hunset hd =>
      unfold known
      rw [if_pos hunset, if_neg (regexDevOf_ne hd), if_pos rfl, Option.none_or, hd]
  | _ => rw [if_neg (by simp), Option.or_none]

theorem Wrote.inputMode_or (h : Wrote rawRuleCmdLine x t v x') :
    known .unknown x'.conf.inputMode = (known .unknown x.conf.inputMode).or
      (if t = .inputMode then some (inputModeOf v) else none) := by
  cases h with
  | inputModeKept v hset =>
      unfold known
      rw [if_neg hset, Option.some_or]
  | inputMode v m hunset hm =>
      unfold known
      rw [if_pos hunset, if_neg (inputModeOf_ne hm), if_pos rfl, Option.none_or, hm]
  | _ => rw [if_neg (by simp), Option.or_none]

theorem Wrote.confFile_or (h : Wrote rawRuleCmdLine x t v x') :
    x'.confFile = x.confFile.or (if t = .configFile then some (unquote v) else none) := by
  cases h with
  | configFile v s hs =>
      rw [if_pos rfl]
      exact confSetString_or hs
  | _ => rw [if_neg (by simp), Option.or_none]

end Registers

/-! ## §4. The passes. -/

/-- **A register after a pass.** -/
theorem pass_register {α : Type} (get : Parser → Option α) (t : Opt) (g : Str → Option α)
    {rawRuleCmdLine : Bool} {prgname : Str}
    (hget : ∀ x o v x', Wrote rawRuleCmdLine x o v x' →
      get x' = (get x).or (if o = t then g v else none))
    {l : List Given} {x x' : Parser}
    (h : l.foldlM (Parser.parseOpt rawRuleCmdLine prgname) x = .ok x') :
    get x' = (get x).or ((values t l).findSome? g) := by
  rw [← findSome?_values]
  exact foldlM_first get (fun o => if optOf o.1 = t then g o.2 else none)
    (fun s o s' hs => hget s _ _ s' (Parser.parseOpt_wrote hs)) h

/-- What the two passes do, one behind the other. -/
structure Passes (env : Env) (prgname : Str) (argv : List Str) (y x : Parser) : Prop where
  cmd : (cmdOpts env prgname argv).foldlM (Parser.parseOpt false prgname) Parser.init = .ok y
  file : (fileOpts env prgname (configFile (cmdOpts env prgname argv))).foldlM
      (Parser.parseOpt (y.conf.str .rawRulesFile).isSome prgname)
      { y with confFile := some (configFile (cmdOpts env prgname argv)) } = .ok x
  /-- The config file, if there is one, is read without an error. -/
  read : ∀ content, env.fopen (configFile (cmdOpts env prgname argv)) = some content →
    ∃ confArgv, confFileArgs env [] (fgets [] content) = .ok confArgv

theorem confParse_passes {env : Env} {prgname : Str} {argv : List Str} {x : Parser}
    (h : confParse env prgname argv = .ok x) : ∃ y, Passes env prgname argv y x := by
  unfold confParse at h
  cases hcmd : confParseArgs env false prgname Parser.init argv with
  | error e =>
      rw [hcmd] at h
      cases h
  | ok y =>
      rw [hcmd] at h
      replace h : (confSetString y.confFile "runtime.conf".toList >>= fun confFile =>
        match confFile with
        | none => .error .undefined
        | some path => confParseFile env (y.conf.str .rawRulesFile).isSome prgname
            { y with confFile := confFile } path) = .ok x := h
      cases hconf : confSetString y.confFile "runtime.conf".toList with
      | error e =>
          rw [hconf] at h
          cases h
      | ok s =>
          rw [hconf] at h
          -- the default is used when the command line names no config file
          have hs : s = some (configFile (cmdOpts env prgname argv)) := by
            have hfirst := pass_register (fun x => x.confFile) .configFile
              (fun v => some (unquote v)) (fun _ _ _ _ hw => hw.confFile_or) hcmd
            rw [confSetString_or hconf, hfirst, findSome?_some]
            show Option.or (Option.or none _) _ = _
            rw [Option.none_or]
            unfold configFile
            show (Option.map unquote (values .configFile (cmdOpts env prgname argv)).head?).or _ = _
            cases (values .configFile (cmdOpts env prgname argv)).head? with
            | none => rfl
            | some v => rfl
          subst hs
          replace h : confParseFile env (y.conf.str .rawRulesFile).isSome prgname
            { y with confFile := some (configFile (cmdOpts env prgname argv)) }
            (configFile (cmdOpts env prgname argv)) = .ok x := h
          unfold confParseFile at h
          cases hopen : env.fopen (configFile (cmdOpts env prgname argv)) with
          | none =>
              rw [hopen] at h
              refine ⟨y, hcmd, ?_, fun content hcontent => ?_⟩
              · unfold fileOpts
                rw [hopen]
                exact h
              · rw [hopen] at hcontent
                cases hcontent
          | some content =>
              rw [hopen] at h
              dsimp only at h
              cases hargs : confFileArgs env [] (fgets [] content) with
              | error e =>
                  rw [hargs] at h
                  cases h
              | ok confArgv =>
                  rw [hargs] at h
                  refine ⟨y, hcmd, ?_, fun content' hcontent => ?_⟩
                  · unfold fileOpts
                    rw [hopen]
                    dsimp only
                    rw [hargs]
                    exact h
                  · rw [hopen] at hcontent
                    cases hcontent
                    exact ⟨confArgv, hargs⟩

/-- **A register after both passes.** -/
theorem Passes.register {α : Type} {env : Env} {prgname : Str} {argv : List Str} {y x : Parser}
    (h : Passes env prgname argv y x) (get : PlConf → Option α) (t : Opt)
    (g : Bool → Str → Option α)
    (hget : ∀ raw x o v x', Wrote raw x o v x' →
      get x'.conf = (get x.conf).or (if o = t then g raw v else none))
    (hinit : get Parser.init.conf = none) :
    get x.conf = ((values t (cmdOpts env prgname argv)).findSome? (g false)).or
      ((values t (fileOpts env prgname (configFile (cmdOpts env prgname argv)))).findSome?
        (g (y.conf.str .rawRulesFile).isSome)) := by
  have hcmd := pass_register (fun x => get x.conf) t (g false) (hget false) h.cmd
  have hfile := pass_register (fun x => get x.conf) t _ (hget _) h.file
  rw [hfile]
  show Option.or (get y.conf) _ = _
  rw [show get y.conf = _ from hcmd, hinit, Option.none_or]

/-- The same, where both passes take the values alike. -/
theorem Passes.register_both {α : Type} {env : Env} {prgname : Str} {argv : List Str}
    {y x : Parser} (h : Passes env prgname argv y x) (get : PlConf → Option α) (t : Opt)
    (g : Str → Option α)
    (hget : ∀ raw x o v x', Wrote raw x o v x' →
      get x'.conf = (get x.conf).or (if o = t then g v else none))
    (hinit : get Parser.init.conf = none) :
    get x.conf = (values t (cmdOpts env prgname argv
      ++ fileOpts env prgname (configFile (cmdOpts env prgname argv)))).findSome? g := by
  rw [values_append, List.findSome?_append]
  exact h.register get t (fun _ => g) hget hinit

/-! ## §5. The first value wins. -/

/-- The fields hold the first values of `cmd`, then `file`. -/
structure FirstWins (cmd file : List Given) (x : Parser) : Prop where
  num : ∀ f, x.conf.num f = ((values (.num f) (cmd ++ file)).findSome? nonzeroOf).getD 0
  str : ∀ f, f ≠ .compiledRulesFile →
    x.conf.str f = (values (.str f) (cmd ++ file)).head?.map unquote
  /-- Raw rules on the command line go before compiled ones in the config file. -/
  compiledRules : x.conf.str .compiledRulesFile = (values (.str .compiledRulesFile)
    (if values (.str .rawRulesFile) cmd = [] then cmd ++ file else cmd)).head?.map unquote
  regexDev : x.conf.regexDevType
    = ((values .regexDev (cmd ++ file)).head?.bind regexDevOf).getD .unknown
  inputMode : x.conf.inputMode
    = ((values .inputMode (cmd ++ file)).head?.bind inputModeOf).getD .unknown
  flag : ∀ f, x.conf.flag f = true ↔ values (.flag f) (cmd ++ file) ≠ []
  confFile : x.confFile = some (configFile cmd)

/-- The field that an option is for is set. -/
def Parser.IsSet (x : Parser) : Opt → Prop
  | .num f => x.conf.num f ≠ 0
  | .str f => (x.conf.str f).isSome = true
  | .regexDev => x.conf.regexDevType ≠ .unknown
  | .inputMode => x.conf.inputMode ≠ .unknown
  | _ => False

/-- **A field that is set** stays, whatever the argument is. -/
theorem Parser.parseOpt_isSet {rawRuleCmdLine : Bool} {prgname : Str} {x : Parser} {o : Given}
    (h : x.IsSet (optOf o.1)) : x.parseOpt rawRuleCmdLine prgname o = .ok x := by
  unfold Parser.parseOpt
  cases hopt : optOf o.1 with
  | num f =>
      rw [hopt] at h
      have hkeep : confSetUint32 (x.conf.num f) o.2 = .ok (x.conf.num f) := if_pos h
      simp only [hkeep]
      show Except.ok _ = Except.ok x
      rw [Function.update_eq_self]
  | str f =>
      rw [hopt] at h
      have hkeep : confSetString (x.conf.str f) o.2 = .ok (x.conf.str f) := if_pos h
      dsimp only
      split
      · rfl
      · rw [hkeep]
        show Except.ok _ = Except.ok x
        rw [Function.update_eq_self]
  | regexDev =>
      rw [hopt] at h
      exact if_pos h
  | inputMode =>
      rw [hopt] at h
      exact if_pos h
  | configFile =>
      rw [hopt] at h
      exact h.elim
  | dpdkEal =>
      rw [hopt] at h
      exact h.elim
  | help =>
      rw [hopt] at h
      exact h.elim
  | version =>
      rw [hopt] at h
      exact h.elim
  | other =>
      rw [hopt] at h
      exact h.elim
  | flag f =>
      rw [hopt] at h
      exact h.elim

theorem eq_getD_of_nz {n : UInt32} {o : Option UInt32} (h : nz n = o) : n = o.getD 0 := by
  subst h
  unfold nz
  split
  next hzero => exact hzero
  next => rfl

theorem eq_getD_of_known {β : Type} [DecidableEq β] {unknown b : β} {o : Option Str}
    {f : Str → Option β} (h : known unknown b = o.map f) : b = (o.bind f).getD unknown := by
  unfold known at h
  cases o with
  | none =>
      split at h
      next hb => exact hb
      next => cases h
  | some v =>
      split at h
      next => cases h
      next =>
        have hv : f v = some b := (Option.some.inj h).symm
        rw [Option.bind_some, hv]
        rfl

theorem Passes.firstWins {env : Env} {prgname : Str} {argv : List Str} {y x : Parser}
    (h : Passes env prgname argv y x) :
    FirstWins (cmdOpts env prgname argv)
      (fileOpts env prgname (configFile (cmdOpts env prgname argv))) x where
  num f := eq_getD_of_nz (h.register_both (fun c => nz (c.num f)) (.num f) nonzeroOf
    (fun _ _ _ _ _ hw => hw.num_or f) rfl)
  str f hf := by
    have hstr := h.register_both (fun c => c.str f) (.str f) (fun v => some (unquote v))
      (fun raw _ o v _ hw => by rw [hw.str_or f, strOf_eq fun hraw => hf hraw.1]) rfl
    rw [findSome?_some] at hstr
    exact hstr
  compiledRules := by
    have hraw : y.conf.str .rawRulesFile
        = (values (.str .rawRulesFile) (cmdOpts env prgname argv)).head?.map unquote := by
      rw [← findSome?_some]
      exact pass_register (fun x => x.conf.str .rawRulesFile) (.str .rawRulesFile)
        (fun v => some (unquote v))
        (fun _ o v _ hw => by rw [hw.str_or, strOf_eq fun hraw => absurd hraw.1 (by decide)]) h.cmd
    have hstr := h.register (fun c => c.str .compiledRulesFile) (.str .compiledRulesFile)
      (fun raw => strOf raw .compiledRulesFile) (fun _ _ _ _ _ hw => hw.str_or _) rfl
    have hfalse : strOf false .compiledRulesFile = fun v => some (unquote v) :=
      funext fun _ => strOf_eq fun hraw => absurd hraw.2 (by decide)
    have htrue : strOf true .compiledRulesFile = fun _ => none := funext strOf_raw
    -- the second pass looks at what the first one has left
    split
    next hnone =>
      rw [hnone] at hraw
      rw [hraw] at hstr
      replace hstr : x.conf.str .compiledRulesFile = Option.or (List.findSome? _ _)
        (List.findSome? (strOf false .compiledRulesFile) _) := hstr
      rw [hfalse, ← List.findSome?_append, ← values_append, findSome?_some] at hstr
      exact hstr
    next hsome =>
      have hset : (y.conf.str .rawRulesFile).isSome = true := by
        rw [hraw, Option.isSome_map, List.isSome_head?]
        simpa using hsome
      rw [hset] at hstr
      replace hstr : x.conf.str .compiledRulesFile
        = Option.or (List.findSome? (strOf false .compiledRulesFile) _)
          (List.findSome? (strOf true .compiledRulesFile) _) := hstr
      rw [hfalse, htrue, findSome?_some, List.findSome?_eq_none_iff.mpr fun _ _ => rfl,
        Option.or_none] at hstr
      exact hstr
  regexDev := by
    have hdev := h.register_both (fun c => known .unknown c.regexDevType) .regexDev
      (fun v => some (regexDevOf v)) (fun _ _ _ _ _ hw => hw.regexDev_or) rfl
    rw [findSome?_some] at hdev
    exact eq_getD_of_known hdev
  inputMode := by
    have hmode := h.register_both (fun c => known .unknown c.inputMode) .inputMode
      (fun v => some (inputModeOf v)) (fun _ _ _ _ _ hw => hw.inputMode_or) rfl
    rw [findSome?_some] at hmode
    exact eq_getD_of_known hmode
  flag f := by
    have hflag := h.register_both (fun c => raised (c.flag f)) (.flag f) (fun _ => some ())
      (fun _ _ _ _ _ hw => hw.flag_or f) rfl
    rw [findSome?_some] at hflag
    unfold raised at hflag
    cases hvalues : values (.flag f) (cmdOpts env prgname argv
        ++ fileOpts env prgname (configFile (cmdOpts env prgname argv))) with
    | nil =>
        rw [hvalues] at hflag
        constructor
        · intro hset
          rw [if_pos hset] at hflag
          cases hflag
        · exact fun hne => absurd rfl hne
    | cons v l =>
        rw [hvalues] at hflag
        refine ⟨fun _ => List.cons_ne_nil v l, fun _ => ?_⟩
        by_contra hunset
        rw [if_neg hunset] at hflag
        cases hflag
  confFile := by
    have hconf := pass_register (fun x => x.confFile) .configFile (fun v => some (unquote v))
      (fun _ _ _ _ hw => hw.confFile_or) h.file
    exact hconf

end Meili.Conf
