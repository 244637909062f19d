/-
  Meili.Conf.Options — the command line and the config file.

  `conf_setup` (`src/lib/conf/meili_conf.c`) goes through the options twice: first
  those of the command line, then those of the config file, which
  `conf_parse_file` turns into arguments.  Both passes are `conf_parse_args`.

  Conventions of the embedding:

    • a C string is the list of its characters, without the NUL at its end;
    • memory does not run out, and messages are left out;
    • `getopt_long`, `rte_strsplit` and `fopen` are parameters; `getopt_long` yields
      an option and its argument, and `?` for what it does not know;
    • the fields of one kind are a function on their names.
-/
import Mathlib.Algebra.Ring.Int.Defs
import Mathlib.Data.Int.Order.Basic
import Mathlib.Logic.Function.Basic

namespace Meili.Conf

/-- A C string. -/
abbrev Str := List Char

/-! ## §1. Strings. -/

/-- `isspace`. -/
def isspace (c : Char) : Bool := c.toNat = 32 || (9 ≤ c.toNat && c.toNat ≤ 13)

/-- `util_trim_whitespace`. -/
def utilTrimWhitespace (input : Str) : Str :=
  ((input.dropWhile isspace).reverse.dropWhile isspace).reverse

/-- The number that digits stand for. -/
def ofDigits (digits : Str) : ℕ := digits.foldl (fun n c => 10 * n + (c.toNat - '0'.toNat)) 0

/-- `strtol` in base 10: the number, not yet cut to the range of `long`, and what is
left of the string. -/
def strtol (str : Str) : ℤ × Str :=
  let body := str.dropWhile isspace
  let unsigned := if body.head? = some '-' ∨ body.head? = some '+' then body.tail else body
  let digits := unsigned.takeWhile Char.isDigit
  if digits = [] then (0, str)
  else
    (if body.head? = some '-' then -(ofDigits digits : ℤ) else ofDigits digits,
      unsigned.dropWhile Char.isDigit)

/-- `LONG_MAX` and `LONG_MIN`. -/
def longMax : ℤ := 2 ^ 63 - 1

def longMin : ℤ := -2 ^ 63

/-- `util_str_to_dec`; `none` is `-EINVAL`. -/
def utilStrToDec (str : Str) (maxBytes : ℕ) : Option ℤ :=
  if str = [] ∨ maxBytes = 0 ∨ 8 < maxBytes then none
  else
    let (ret, rest) := strtol str
    if ret < longMin ∨ longMax < ret ∨ rest ≠ [] then none
    -- a bit of `ret & ~mask` is set
    else if maxBytes < 8 ∧ (ret < 0 ∨ 2 ^ (8 * maxBytes) ≤ ret) then none
    else some ret

/-! ## §2. The configuration. -/

/-- The `uint32_t` fields that an option sets. -/
inductive NumField where
  | verbose | cores | inputDuration | inputIterations | inputPackets | inputBytes | inputBufLen
  | inputLenThreshold | inputOverlap | inputBatches | slidingWindow
  deriving Repr, DecidableEq

/-- The `char *` fields that an option sets. -/
inductive StrField where
  | inputFile | rawRulesFile | compiledRulesFile | port1 | port2
  deriving Repr, DecidableEq

/-- The `bool` fields that an option sets. -/
inductive FlagField where
  | inputAppMode | latencyMode | hsSinglematch | hsLeftmost | forceCompile | singleLine | caseless
  | multiLine | freeSpace
  deriving Repr, DecidableEq

/-- `enum meili_regex_dev`. -/
inductive RegexDev where
  | dpdkRegex | hyperscan | docaRegex | unknown
  deriving Repr, DecidableEq

/-- `enum rxpbench_input_type`. -/
inductive InputType where
  | pcapFile | textFile | live | jobFormat | remoteMmap | unknown
  deriving Repr, DecidableEq

/-- `pl_conf`, as far as the options set it. -/
structure PlConf where
  /-- `dpdk_argv`, of which `dpdk_argc` is the length. -/
  dpdkArgv : List Str
  regexPcie : Option Str
  num : NumField → UInt32
  str : StrField → Option Str
  flag : FlagField → Bool
  regexDevType : RegexDev
  inputMode : InputType

/-- What a pass writes: the configuration and the static variable `conf_file`. -/
structure Parser where
  conf : PlConf
  confFile : Option Str

/-- Why a pass ends early. -/
inductive Stop where
  /-- A negative error code is returned. -/
  | err (code : ℤ)
  /-- `rte_exit(EXIT_SUCCESS, NULL)`. -/
  | exit
  /-- Something outside of a string is read: the behaviour is undefined. -/
  | undefined
  deriving Repr, DecidableEq

/-- `-EINVAL`. -/
def errInval : ℤ := -22

/-- `-ENOTSUP`. -/
def errNotsup : ℤ := -95

/-- Behind `memset` in `main` and `conf_init`. -/
def Parser.init : Parser where
  conf :=
    { dpdkArgv := []
      regexPcie := none
      num := fun _ => 0
      str := fun _ => none
      flag := fun _ => false
      regexDevType := .unknown
      inputMode := .unknown }
  confFile := none

/-! ## §3. Setters. -/

/-- `conf_set_uint32_t`. -/
def confSetUint32 (dest : UInt32) (optarg : Str) : Except Stop UInt32 :=
  if dest ≠ 0 then .ok dest
  else
    match utilStrToDec optarg 4 with
    | none => .error (.err errInval)
    | some tmp => if tmp = 0 then .ok dest else .ok (UInt32.ofNat tmp.toNat)

/-- A string without the quotes around it; a lone quote counts for both of them, and
the empty string is left. -/
def unquote (optarg : Str) : Str :=
  if optarg.head? = some '"' ∧ optarg.getLast? = some '"' then optarg.tail.dropLast else optarg

/-- `conf_set_string`. -/
def confSetString (dest : Option Str) (optarg : Str) : Except Stop (Option Str) :=
  if dest.isSome then .ok dest
  else .ok (some (unquote optarg))

/-- `conf_extract_regex_pcie_addr`. -/
def confExtractRegexPcieAddr (conf : PlConf) (dpdkPcie : Str) : Except Stop PlConf :=
  if conf.regexPcie.isSome then .ok conf
  else
    let pcie := dpdkPcie.takeWhile (· ≠ ',')
    if pcie.length < 3 then .error (.err errInval)
    else if pcie.drop (pcie.length - 2) = ['.', '0'] then .ok { conf with regexPcie := some pcie }
    else .ok conf

/-- `MAX_DPDK_ARGS`. -/
def maxDpdkArgs : ℕ := 20

/-- The loop of `conf_parse_dpdk_params` over what `strtok` finds. -/
def dpdkArgs (conf : PlConf) (checkForRegexDev : Bool) : List Str → Except Stop PlConf
  | [] => .ok conf
  | dpdkArg :: rest =>
      match if checkForRegexDev then confExtractRegexPcieAddr conf dpdkArg else .ok conf with
      | .error ret => .error ret
      | .ok conf =>
          let conf := { conf with dpdkArgv := conf.dpdkArgv ++ [dpdkArg] }
          if maxDpdkArgs ≤ conf.dpdkArgv.length then .error (.err errNotsup)
          else dpdkArgs conf (!checkForRegexDev && dpdkArg == ['-', 'a']) rest

/-- `conf_parse_dpdk_params`. -/
def confParseDpdkParams (conf : PlConf) (prgname params : Str) : Except Stop PlConf :=
  if conf.dpdkArgv ≠ [] then .ok conf
  else
    dpdkArgs { conf with dpdkArgv := [prgname] } false
      (((unquote params).splitOn ' ').filter (· ≠ []))

/-! ## §4. Options. -/

/-- What an option is for. -/
inductive Opt where
  | configFile | dpdkEal | regexDev | inputMode | help | version | other
  | num (f : NumField)
  | str (f : StrField)
  | flag (f : FlagField)
  deriving Repr, DecidableEq

/-- The cases of the `switch` in `conf_parse_args`. -/
def optOf : Char → Opt
  | 'C' => .configFile
  | 'D' => .dpdkEal
  | 'V' => .num .verbose
  | 'c' => .num .cores
  | 'd' => .regexDev
  | 'm' => .inputMode
  | 'f' => .str .inputFile
  | 'r' => .str .compiledRulesFile
  | 'R' => .str .rawRulesFile
  | 's' => .num .inputDuration
  | 'n' => .num .inputIterations
  | 'p' => .num .inputPackets
  | 'b' => .num .inputBytes
  | 'A' => .flag .inputAppMode
  | 'l' => .num .inputBufLen
  | 't' => .num .inputLenThreshold
  | 'o' => .num .inputOverlap
  | 'g' => .num .inputBatches
  | 'w' => .num .slidingWindow
  | '8' => .flag .latencyMode
  | 'H' => .flag .hsSinglematch
  | 'L' => .flag .hsLeftmost
  | 'F' => .flag .forceCompile
  | 'S' => .flag .singleLine
  | 'i' => .flag .caseless
  | 'u' => .flag .multiLine
  | 'x' => .flag .freeSpace
  | '1' => .str .port1
  | '2' => .str .port2
  | 'h' => .help
  | 'v' => .version
  | _ => .other

/-- The names of the regex devices. -/
def regexDevOf (optarg : Str) : Option RegexDev :=
  if optarg = "regex_dpdk".toList ∨ optarg = "rxp".toList then some .dpdkRegex
  else if optarg = "hyperscan".toList ∨ optarg = "hs".toList then some .hyperscan
  else if optarg = "doca_regex".toList ∨ optarg = "doca".toList then some .docaRegex
  else none

/-- The names of the input modes. -/
def inputModeOf (optarg : Str) : Option InputType :=
  if optarg = "dpdk_port".toList then some .live
  else if optarg = "pcap_file".toList then some .pcapFile
  else if optarg = "text_file".toList then some .textFile
  else if optarg = "job_format".toList then some .jobFormat
  else if optarg = "remote_mmap".toList then some .remoteMmap
  else none

/-- An option that `getopt_long` has yielded, with its argument. -/
abbrev Given := Char × Str

/-- The body of the loop in `conf_parse_args`. -/
def Parser.parseOpt (rawRuleCmdLine : Bool) (prgname : Str) (x : Parser) (o : Given) :
    Except Stop Parser :=
  match optOf o.1 with
  | .configFile => do
      let confFile ← confSetString x.confFile o.2
      .ok { x with confFile := confFile }
  | .dpdkEal => do
      let conf ← confParseDpdkParams x.conf prgname o.2
      .ok { x with conf := conf }
  | .regexDev =>
      if x.conf.regexDevType ≠ .unknown then .ok x
      else
        match regexDevOf o.2 with
        | some d => .ok { x with conf := { x.conf with regexDevType := d } }
        | none => .error (.err errInval)
  | .inputMode =>
      if x.conf.inputMode ≠ .unknown then .ok x
      else
        match inputModeOf o.2 with
        | some m => .ok { x with conf := { x.conf with inputMode := m } }
        | none => .error (.err errInval)
  | .num f => do
      let v ← confSetUint32 (x.conf.num f) o.2
      .ok { x with conf := { x.conf with num := Function.update x.conf.num f v } }
  | .str f =>
      if f = .compiledRulesFile ∧ rawRuleCmdLine then .ok x
      else do
        let s ← confSetString (x.conf.str f) o.2
        .ok { x with conf := { x.conf with str := Function.update x.conf.str f s } }
  | .flag f => .ok { x with conf := { x.conf with flag := Function.update x.conf.flag f true } }
  | .help => .error .exit
  | .version => .error .exit
  | .other => .error (.err errNotsup)

/-! ## §5. The two passes. -/

/-- What the program is linked with, and the files it can read. -/
structure Env where
  getoptLong : List Str → List Given
  rteStrsplit : Str → Option (List Str)
  fopen : Str → Option Str

/-- `conf_parse_args`. -/
def confParseArgs (env : Env) (rawRuleCmdLine : Bool) (prgname : Str) (x : Parser)
    (argv : List Str) : Except Stop Parser :=
  (env.getoptLong (prgname :: argv)).foldlM (Parser.parseOpt rawRuleCmdLine prgname) x

/-- `CONFIG_FILE_LINE_LEN`. -/
def configFileLineLen : ℕ := 200

/-- `CONFIG_FILE_MAX_ARGS`. -/
def configFileMaxArgs : ℕ := 100

/-- What `fgets` reads from a file, call by call, with `line` read by this one. -/
def fgets (line : Str) : Str → List Str
  | [] => if line = [] then [] else [line]
  | c :: rest =>
      if c = '\n' ∨ line.length + 2 = configFileLineLen then (line ++ [c]) :: fgets [] rest
      else fgets (line ++ [c]) rest

/-- An option of the config file in its short or long form. -/
def optFormatted (opt : Str) : Str :=
  if opt.length = 1 then '-' :: opt else '-' :: '-' :: opt

/-- The loop of `conf_parse_file`: the arguments behind `conf_argv[0]`. -/
def confFileArgs (env : Env) (confArgv : List Str) : List Str → Except Stop (List Str)
  | [] => .ok confArgv
  | conf :: rest =>
      match env.rteStrsplit (conf.takeWhile (· ≠ '\x00')) with
      | none => .error (.err (-1))
      | some [] => .error .undefined
      | some (field :: fields) =>
          let opt := utilTrimWhitespace field
          if opt = [] ∨ opt.head? = some '#' then confFileArgs env confArgv rest
          -- "Max config file fields reached."
          else if configFileMaxArgs - 2 ≤ confArgv.length + 1 then .ok confArgv
          else
            confFileArgs env
              (confArgv ++ optFormatted opt :: (fields.head?.map utilTrimWhitespace).toList) rest

/-- `conf_parse_file`. -/
def confParseFile (env : Env) (rawRuleCmdLine : Bool) (prgname : Str) (x : Parser)
    (confFile : Str) : Except Stop Parser :=
  match env.fopen confFile with
  | none => .ok x
  | some content => do
      let confArgv ← confFileArgs env [] (fgets [] content)
      confParseArgs env rawRuleCmdLine prgname x confArgv

/-- `conf_setup`, up to the end of the two passes. -/
def confParse (env : Env) (prgname : Str) (argv : List Str) : Except Stop Parser := do
  let x ← confParseArgs env false prgname Parser.init argv
  let rawRuleCmdLine := (x.conf.str .rawRulesFile).isSome
  let confFile ← confSetString x.confFile "runtime.conf".toList
  match confFile with
  | none => .error .undefined
  | some path => confParseFile env rawRuleCmdLine prgname { x with confFile := confFile } path

end Meili.Conf
