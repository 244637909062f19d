/-
  Meili.Conf.Sources — the two sources of options.

  The options of the command line come first, then those of the config file.  Of it
  `conf_parse_file` passes on the entries of its lines, in order, until `conf_argv` is full:
  what stands behind the entry that finds no room is dropped, with a warning and no error.
  Lines that do not fit the buffer of `fgets` are the subject of `Meili.Conf.Lines`.

    §1  the lines that are read (`ReadUpTo`);
    §2  `options_first_wins`;
    §3  two config files.
-/
import Meili.Conf.Lines
import Meili.Conf.Priority

namespace Meili.Conf

open Meili.Lib

/-! ## §1. The entries of the config file. -/

/-- The lines whose entries are passed on, when `conf_argc` is `argc` in front of them: all
lines, or those in front of the first entry that has no room. -/
structure ReadUpTo (env : Env) (argc : ℕ) (lines read : List Str) : Prop where
  room : ∀ front line back, read = front ++ line :: back → lineArgs env line ≠ [] →
    argc + (front.flatMap (lineArgs env)).length < configFileMaxArgs - 2
  rest : read = lines ∨ ∃ line back, lines = read ++ line :: back ∧ lineArgs env line ≠ []
    ∧ configFileMaxArgs - 2 ≤ argc + (read.flatMap (lineArgs env)).length

variable {env : Env}

/-- One line, when the loop reports no error. -/
theorem confFileArgs_cons_ok {confArgv argv : List Str} {line : Str} {lines : List Str}
    (h : confFileArgs env confArgv (line :: lines) = .ok argv) :
    (lineArgs env line = [] ∧ confFileArgs env confArgv lines = .ok argv)
      ∨ (lineArgs env line ≠ [] ∧ configFileMaxArgs - 2 ≤ confArgv.length + 1
          ∧ argv = confArgv)
      ∨ (lineArgs env line ≠ [] ∧ confArgv.length + 1 < configFileMaxArgs - 2
          ∧ confFileArgs env (confArgv ++ lineArgs env line) lines = .ok argv) := by
  unfold lineArgs
  rw [confFileArgs] at h
  split at h
  · cases h
  · cases h
  · rename_i field fields hsplit
    rw [hsplit]
    dsimp only at h ⊢
    split at h
    · rename_i hnone
      rw [if_pos hnone]
      exact Or.inl ⟨rfl, h⟩
    · rename_i hentry
      rw [if_neg hentry]
      -- the guard counts argv[0] too
      split at h
      · rename_i hfull
        cases h
        exact Or.inr (Or.inl ⟨List.cons_ne_nil _ _, hfull, rfl⟩)
      · rename_i hroom
        exact Or.inr (Or.inr ⟨List.cons_ne_nil _ _, Nat.lt_of_not_le hroom, h⟩)

theorem ReadUpTo.cons {argc : ℕ} {line : Str} {lines read : List Str}
    (hroom : lineArgs env line ≠ [] → argc < configFileMaxArgs - 2)
    (h : ReadUpTo env (argc + (lineArgs env line).length) lines read) :
    ReadUpTo env argc (line :: lines) (line :: read) where
  room := by
    intro front other back heq hentry
    cases front with
    | nil =>
        obtain ⟨rfl, -⟩ := List.cons.inj heq
        exact hroom hentry
    | cons first front =>
        obtain ⟨rfl, hread⟩ := List.cons.inj heq
        have hlater := h.room front other back hread hentry
        rw [List.flatMap_cons, List.length_append]
        omega
  rest := by
    rcases h.rest with rfl | ⟨other, back, hlines, hentry, hfull⟩
    · exact Or.inl rfl
    · refine Or.inr ⟨other, back, by rw [hlines, List.cons_append], hentry, ?_⟩
      rw [List.flatMap_cons, List.length_append]
      omega

/-- **The loop of `conf_parse_file`**: it ends at the end of the file, or where
`conf_argv` is full. -/
theorem confFileArgs_readUpTo {lines confArgv argv : List Str}
    (h : confFileArgs env confArgv lines = .ok argv) :
    ∃ read, ReadUpTo env (confArgv.length + 1) lines read
      ∧ argv = confArgv ++ read.flatMap (lineArgs env) := by
  induction lines generalizing confArgv with
  | nil =>
      cases h
      exact ⟨[], ⟨by simp, Or.inl rfl⟩, by simp⟩
  | cons line lines ih =>
      rcases confFileArgs_cons_ok h with ⟨hnil, hrest⟩ | ⟨hentry, hfull, rfl⟩
          | ⟨hentry, hroom, hrest⟩
      · -- a blank line or a comment is read, and adds nothing
        obtain ⟨read, hread, hargv⟩ := ih hrest
        refine ⟨line :: read, .cons (fun hentry => absurd hnil hentry) ?_, ?_⟩
        · rw [hnil]
          exact hread
        · rw [List.flatMap_cons, hnil, List.nil_append, hargv]
      · -- `conf_argv` is full: the loop breaks at this line
        refine ⟨[], ⟨by simp, Or.inr ⟨line, lines, rfl, hentry, ?_⟩⟩, by simp⟩
        rw [List.flatMap_nil, List.length_nil]
        exact hfull
      · obtain ⟨read, hread, hargv⟩ := ih hrest
        refine ⟨line :: read, .cons (fun _ => hroom) ?_, ?_⟩
        · rw [List.length_append, Nat.add_right_comm] at hread
          exact hread
        · rw [List.flatMap_cons, ← List.append_assoc, hargv]

/-- **The config file's options**, where its lines fit the buffer. -/
theorem Passes.fileOpts_eq {prgname content : Str} {argv : List Str} {y x : Parser}
    (h : Passes env prgname argv y x)
    (hopen : env.fopen (configFile (cmdOpts env prgname argv)) = some content)
    (hfits : ∀ line ∈ linesOf content, line.length < configFileLineLen) :
    ∃ read, ReadUpTo env 1 (linesOf content) read
      ∧ fileOpts env prgname (configFile (cmdOpts env prgname argv))
          = env.getoptLong (prgname :: read.flatMap (lineArgs env)) := by
  obtain ⟨confArgv, hargs⟩ := h.read content hopen
  have hpieces : fgets [] content = linesOf content := fgets_eq_linesFrom hfits
  obtain ⟨read, hread, hargv⟩ := confFileArgs_readUpTo (hpieces ▸ hargs)
  refine ⟨read, hread, ?_⟩
  unfold fileOpts
  rw [hopen]
  dsimp only
  rw [hargs, hargv, List.nil_append]

/-! ## §2. The first value wins. -/

/-- **Options are first-wins.**  When both passes report no error, every field holds the
first value for it on the command line and, behind it, in the config file.  Where its lines
fit the buffer, the file's options are those of its lines, as far as there is room for
them.  In a pass, an option for a field that is set can be left out. -/
theorem options_first_wins {prgname : Str} {argv : List Str} {x : Parser}
    (h : confParse env prgname argv = .ok x) :
    FirstWins (cmdOpts env prgname argv)
        (fileOpts env prgname (configFile (cmdOpts env prgname argv))) x
      ∧ (env.fopen (configFile (cmdOpts env prgname argv)) = none →
          fileOpts env prgname (configFile (cmdOpts env prgname argv)) = [])
      ∧ (∀ content, env.fopen (configFile (cmdOpts env prgname argv)) = some content →
          (∀ line ∈ linesOf content, line.length < configFileLineLen) →
          ∃ read, ReadUpTo env 1 (linesOf content) read
            ∧ fileOpts env prgname (configFile (cmdOpts env prgname argv))
                = env.getoptLong (prgname :: read.flatMap (lineArgs env)))
      ∧ ∀ (rawRuleCmdLine : Bool) (l l' : List Given) (o : Given) (y z : Parser),
          l.foldlM (Parser.parseOpt rawRuleCmdLine prgname) y = .ok z → z.IsSet (optOf o.1) →
          (l ++ o :: l').foldlM (Parser.parseOpt rawRuleCmdLine prgname) y
            = (l ++ l').foldlM (Parser.parseOpt rawRuleCmdLine prgname) y := by
  obtain ⟨y, hpasses⟩ := confParse_passes h
  refine ⟨hpasses.firstWins, ?_, ?_, fun rawRuleCmdLine l l' o y z hl hset => ?_⟩
  · intro hopen
    unfold fileOpts
    rw [hopen]
  · intro content hopen hfits
    exact hpasses.fileOpts_eq hopen hfits
  · exact foldlM_skip hl (Parser.parseOpt_isSet hset)

/-! ## §3. Two config files. -/

theorem ok_of_map {α β : Type} {e : Except Stop β} {f : β → α} {a : α}
    (h : e.toOption.map f = some a) : ∃ x, e = .ok x ∧ f x = a := by
  cases e with
  | error _ => cases h
  | ok x => exact ⟨x, rfl, Option.some.inj h⟩

/-- `getopt_long` on arguments of the form `-x value`. -/
def pairOpts : List Str → List Given
  | ['-', c] :: v :: rest => (c, v) :: pairOpts rest
  | _ => []

/-- `rte_strsplit` at the first colon. -/
def colonSplit (s : Str) : List Str :=
  match s, (s.dropWhile (· ≠ ':')).tail with
  | [], _ => []
  | s, [] => [s.takeWhile (· ≠ ':')]
  | s, rest => [s.takeWhile (· ≠ ':'), rest]

/-- A system whose config file has this content. -/
def oneFile (content : Str) : Env where
  getoptLong argv := pairOpts argv.tail
  rteStrsplit s := some (colonSplit s)
  fopen path := if path = "runtime.conf".toList then some content else none

def meili : Str := "meili".toList

/-- Four cores and raw rules. -/
def sampleArgs : List Str := ["-c".toList, "4".toList, "-R".toList, "raw".toList]

/-- Eight cores, compiled rules, and 1000 bytes. -/
def sampleFile : Str := "c: 8\n# rules\nr: rules\nb: 1000\n".toList

theorem sample_first_wins : ∃ x, confParse (oneFile sampleFile) meili sampleArgs = .ok x
    ∧ x.conf.num .cores = 4 ∧ x.conf.num .inputBytes = 1000
    ∧ x.conf.str .compiledRulesFile = none
    ∧ FirstWins (cmdOpts (oneFile sampleFile) meili sampleArgs)
        (fileOpts (oneFile sampleFile) meili
          (configFile (cmdOpts (oneFile sampleFile) meili sampleArgs))) x := by
  obtain ⟨x, hparse, hx⟩ := ok_of_map (e := confParse (oneFile sampleFile) meili sampleArgs)
    (f := fun x => (x.conf.num .cores, x.conf.num .inputBytes, x.conf.str .compiledRulesFile))
    (a := (4, 1000, none)) (by decide +kernel)
  obtain ⟨hcores, hbytes, hrules⟩ : x.conf.num .cores = 4 ∧ x.conf.num .inputBytes = 1000
      ∧ x.conf.str .compiledRulesFile = none := by simpa using hx
  exact ⟨x, hparse, hcores, hbytes, hrules, (options_first_wins hparse).1⟩

/-- Fifty lines, of which the last one asks for four cores. -/
def longFile : Str := (List.replicate 49 "V:0\n".toList).flatten ++ "c:4\n".toList

/-- **A config file that is too long**: what it says at its end counts for nothing. -/
theorem longFile_not_first_wins : ∃ x, confParse (oneFile longFile) meili [] = .ok x
    ∧ ¬ FirstWins (cmdOpts (oneFile longFile) meili [])
        ((oneFile longFile).getoptLong
          (meili :: (linesOf longFile).flatMap (lineArgs (oneFile longFile)))) x := by
  obtain ⟨x, hparse, hx⟩ := ok_of_map (e := confParse (oneFile longFile) meili [])
    (f := fun x => x.conf.num .cores) (a := 0) (by decide +kernel)
  refine ⟨x, hparse, fun hfirst => ?_⟩
  have hgiven : (values (.num .cores) (cmdOpts (oneFile longFile) meili []
      ++ (oneFile longFile).getoptLong (meili :: (linesOf longFile).flatMap
        (lineArgs (oneFile longFile))))).findSome? nonzeroOf = some 4 := by decide +kernel
  have hcores := hfirst.num .cores
  rw [hgiven, show x.conf.num .cores = 0 from hx] at hcores
  exact absurd hcores (by decide)

end Meili.Conf
