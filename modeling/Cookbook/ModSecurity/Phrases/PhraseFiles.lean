import Cookbook.ModSecurity.Phrases.DecodedContent
import Cookbook.ModSecurity.TextLines

/-!
# Phrase lists

`@pmFromFile` loads the phrases of several lists into one parser.  A list is a
file, whose lines go through `parse_pm_content` and lose the white space around
them, or it is downloaded and cut at its newlines.
-/

namespace Cookbook.ModSecurity.Phrases

open Cookbook.Lib.CText
open Cookbook.Lib.Words
open Cookbook.ModSecurity.Text
open Cookbook.ModSecurity.TextLines

/-- The libraries behind paths, files and downloads.  A path is made absolute
with the path of the rule file. -/
structure PhraseSources where
  merge : Bytes → Bytes → Bytes
  openFile : Bytes → Except Bytes TextFile
  download : Bytes → Download

def missingFileParameter : Bytes :=
  ascii "Missing parameter for operator 'pmFromFile'.".toList

def httpsExpected (fn : Bytes) : Bytes := ascii
    "HTTPS address or file path are expected for operator pmFromFile \"".toList ++
    fn ++ ascii ['"']

def couldNotOpen (fn reason : Bytes) : Bytes :=
  ascii "Could not open phrase file \"".toList ++ fn ++
    ascii ['"', ':', ' '] ++ reason

def couldNotRead (fn : Bytes) (line : Nat) (reason : Bytes) : Bytes :=
  ascii "Could not read \"".toList ++ fn ++ ascii "\" line ".toList ++
    formatNat line ++ ascii [':', ' '] ++ reason

/-- The pattern that a line of a file gives, if it gives one. -/
def linePattern (behind buf : Bytes) : Option (Option Bytes) :=
  match parsePmContent behind buf ((cString buf).length % 2 ^ 16) with
  | none => none
  | some outcome =>
    let start := (phraseOf outcome buf).dropWhile isSpace
    if lineLength start = 0 ∨ start.head? = some 0x23 then some none
    else some (some (start.take (lineLength start)))

/-- What the loop over the lines of a file hands to `acmp_add_pattern`. -/
def filePatterns (behind file : Bytes) : Option (List Bytes) :=
  ((readLines file.length file).mapM (linePattern behind)).map List.reduceOption

/-- What the loop over a downloaded text hands to `acmp_add_pattern`. -/
def uriPatterns (memory : Bytes) : List Bytes :=
  (strtokLines (cString memory)).filter fun word => word.head? ≠ some 0x23

def httpScheme : Bytes := ascii "http://".toList

def httpsScheme : Bytes := ascii "https://".toList

def HasScheme (scheme fn : Bytes) : Prop :=
  scheme.length < fn.length ∧ scheme <+: fn

instance (scheme fn : Bytes) : Decidable (HasScheme scheme fn) :=
  inferInstanceAs (Decidable (scheme.length < fn.length ∧ scheme <+: fn))

/-- The path of the rule file without its name. -/
def rulefilePath (filename : Bytes) : Bytes := filename.take (filename.length -
    (filename.reverse.takeWhile fun byte => byte ≠ 0x2f).length)

section

variable (behind : Bytes) (sources : PhraseSources) (filename : Bytes)

/-- The patterns of a file, or the message of an error. -/
def loadFile (fn : Bytes) : Option (Except Bytes (List Bytes)) :=
  let fn := sources.merge (rulefilePath filename) fn
  match sources.openFile fn with
  | .error reason => some (.error (couldNotOpen fn reason))
  | .ok file =>
    (filePatterns behind file.content).map fun patterns =>
      match file.error with
      | none => .ok patterns
      | some reason =>
        .error (couldNotRead fn
            ((readLines file.content.length file.content).length + 1)
            reason)

/-- The loop over the names of the lists: the patterns, or none when a
download is given up with a warning, or the message of an error. -/
def loadLists :
    List Bytes → List Bytes → Option (Except Bytes (Option (List Bytes)))
  | [], patterns => some (.ok (some patterns))
  | fn :: next, patterns =>
    if HasScheme httpScheme fn then
      some (.error (httpsExpected fn))
    else if HasScheme httpsScheme fn then
      match sources.download fn with
      | .warned => some (.ok none)
      | .failed message => some (.error message)
      | .content memory => loadLists next (patterns ++ uriPatterns memory)
    else
      match loadFile behind sources filename fn with
      | none => none
      | some (.error message) => some (.error message)
      | some (.ok added) => loadLists next (patterns ++ added)

/-- The patterns that the operator adds to its parser. -/
def addedPatterns (opParam : Bytes) :
    Option (Except Bytes (Option (List Bytes))) :=
  if cString opParam = [] then some (.error missingFileParameter)
  else loadLists behind sources filename (words isSpace (cString opParam)) []

/-- `msre_op_pmFromFile_param_init`: the parser, or none when there is no
`op_param_data`, or the message of an error. -/
def msreOpPmFromFileParamInit (opParam : Bytes) :
    Option (Except Bytes (Option Acmp)) :=
  match addedPatterns behind sources filename opParam with
  | none => none
  | some (.error message) => some (.error message)
  | some (.ok none) => some (.ok none)
  | some (.ok (some patterns)) =>
    (acmpPrepare (addWords acmpCreate patterns)).map fun parser =>
      .ok (some parser)

end

end Cookbook.ModSecurity.Phrases
