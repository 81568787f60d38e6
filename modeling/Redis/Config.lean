import Mathlib.Data.List.DropRight
import Redis.Bus.State
import Redis.Sds.Split

/-!
# Redis.Config

The configuration file: `rewriteConfig` of `config.c`, which writes the options of the
server into the file it was started with, line by line, and `loadServerConfig`, which
reads it back.

An option may stand in many lines.  The rewriting puts the new lines of an option in the
places of its old ones, in order, and the rest at the end; what is left of the old ones
is blanked.  The main result is that the lines of an option are then read in the order in
which they were written, whatever else the file holds.
-/

namespace Redis.Config

open Redis.Sds

def str (s : String) : Bytes := s.toList.map fun c => UInt8.ofNat c.toNat

def REDIS_CONFIGLINE_MAX : Nat := 1024

def REDIS_CONFIG_REWRITE_SIGNATURE : Bytes := str "# Generated by CONFIG REWRITE"

/-! ## Lines -/

/-- A buffer up to its null byte. -/
def cstr (bs : Bytes) : Bytes := bs.takeWhile (· ≠ 0)

/-- What the calls of `fgets` return: a line with its newline, or as much of it as fits. -/
def fgetsLoop : Bytes → Bytes → List Bytes
  | [], [] => []
  | buf, [] => [buf]
  | buf, b :: bs =>
    if b = 10 ∨ buf.length + 1 = REDIS_CONFIGLINE_MAX then (buf ++ [b]) :: fgetsLoop [] bs
    else fgetsLoop (buf ++ [b]) bs

/-- The bytes that `sdstrim` drops at both ends of a line. -/
def isBlank (b : UInt8) : Bool := b == 32 || b == 9 || b == 10 || b == 13

/-- `sdstrim(line," \t\r\n")`. -/
def sdstrim (line : Bytes) : Bytes := (line.dropWhile isBlank).rdropWhile isBlank

def sdstolower (w : Bytes) : Bytes :=
  w.map fun c => if 65 ≤ c ∧ c ≤ 90 then c + 32 else c

/-- What a line is: a comment or nothing, a line with unbalanced quotes, or a directive with
its arguments. -/
inductive Kind where
  | comment
  | unbalanced
  | directive (option : Bytes) (args : List Bytes)
  deriving DecidableEq

/-- How a trimmed line is read.  A line without any word is no directive either, and the
name of a directive is compared as a C string. -/
def kind : Bytes → Kind
  | [] => .comment
  | b :: line =>
    if b = 35 then .comment
    else
      match sdssplitargs (b :: line) with
      | none => .unbalanced
      | some [] => .comment
      | some (option :: args) => .directive (sdstolower (cstr option)) args

/-! ## Rewriting -/

/-- `rewriteConfigState`.  An option without lines has no entry in `option_to_line`. -/
structure RewriteState where
  lines : List Bytes
  optionToLine : Bytes → List Nat
  rewritten : List Bytes
  hasTail : Bool

def rewriteConfigAppendLine (st : RewriteState) (line : Bytes) : RewriteState :=
  { st with lines := st.lines ++ [line] }

def rewriteConfigAddLineNumberToOption (st : RewriteState) (option : Bytes) (linenum : Nat) :
    RewriteState :=
  { st with
    optionToLine := Function.update st.optionToLine option (st.optionToLine option ++ [linenum]) }

def rewriteConfigMarkAsProcessed (st : RewriteState) (option : Bytes) : RewriteState :=
  { st with rewritten := if option ∈ st.rewritten then st.rewritten else option :: st.rewritten }

/-- What becomes of one line of the old file. -/
def readOldLine (st : RewriteState) (buf : Bytes) : RewriteState :=
  let line := sdstrim (cstr buf)
  match kind line with
  | .comment =>
    rewriteConfigAppendLine
      { st with hasTail := st.hasTail || line == REDIS_CONFIG_REWRITE_SIGNATURE } line
  | .unbalanced => rewriteConfigAppendLine st (str "# ??? " ++ line)
  | .directive option _ =>
    rewriteConfigAddLineNumberToOption (rewriteConfigAppendLine st line) option st.lines.length

def rewriteConfigReadOldFile (file : Bytes) : RewriteState :=
  (fgetsLoop [] file).foldl readOldLine ⟨[], fun _ => [], [], false⟩

def rewriteConfigRewriteLine (st : RewriteState) (option line : Bytes) (force : Bool) :
    RewriteState :=
  let st := rewriteConfigMarkAsProcessed st option
  match st.optionToLine option with
  | [] =>
    if force then
      let st :=
        if st.hasTail then st
        else
          { rewriteConfigAppendLine st REDIS_CONFIG_REWRITE_SIGNATURE with hasTail := true }
      rewriteConfigAppendLine st line
    else st
  | linenum :: l =>
    { st with
      lines := st.lines.set linenum line
      optionToLine := Function.update st.optionToLine option l }

/-- The calls by which `rewriteConfig` writes the options of the server: a new line for an
option, or only the mark that old lines of the option go. -/
inductive Rewrite where
  | line (opt text : Bytes) (force : Bool)
  | processed (opt : Bytes)

/-- The option that is rewritten. -/
def Rewrite.option : Rewrite → Bytes
  | .line opt _ _ => opt
  | .processed opt => opt

def Rewrite.apply (st : RewriteState) : Rewrite → RewriteState
  | .line opt text force => rewriteConfigRewriteLine st opt text force
  | .processed opt => rewriteConfigMarkAsProcessed st opt

/-- `rewriteConfigRemoveOrphaned`: the lines that are left of an option that was rewritten
are blanked. -/
def rewriteConfigRemoveOrphaned (st : RewriteState) : RewriteState :=
  { st with
    lines := (st.rewritten.flatMap st.optionToLine).foldl (fun lines k => lines.set k []) st.lines }

/-- The loop of `rewriteConfigGetContentFromState`, which keeps one of several empty lines. -/
def squeeze : Bool → List Bytes → List Bytes
  | _, [] => []
  | wasEmpty, [] :: lines => if wasEmpty then squeeze true lines else [] :: squeeze true lines
  | _, line :: lines => line :: squeeze false lines

def rewriteConfigGetContentFromState (st : RewriteState) : Bytes :=
  (squeeze false st.lines).flatMap fun line => line ++ [10]

/-- `rewriteConfig` on the old file.  The new content replaces the old one as a whole. -/
def rewriteConfig (file : Bytes) (calls : List Rewrite) : Bytes :=
  rewriteConfigGetContentFromState
    (rewriteConfigRemoveOrphaned (calls.foldl Rewrite.apply (rewriteConfigReadOldFile file)))

/-! ## Loading -/

section Load

variable {σ : Type}

/-- The text of the option that Sentinel handles itself. -/
def sentinelOption : Bytes := str "sentinel"

/-- One line of `loadServerConfigFromString`.  The directives that are not of Sentinel are
outside of this model: `directive` says what is wrong with one, if anything, and
`sentinel` is `sentinelHandleConfiguration`. -/
def loadLine (directive : Bytes → List Bytes → Option String)
    (sentinel : σ → List Bytes → Except String σ) (st : σ) (line : Bytes) :
    Except String σ :=
  match kind (sdstrim line) with
  | .comment => .ok st
  | .unbalanced => .error "Unbalanced quotes in configuration line"
  | .directive option args =>
    if option = sentinelOption then
      match args with
      | [] => .ok st
      | args => sentinel st args
    else
      match directive option args with
      | some err => .error err
      | none => .ok st

def loadServerConfigFromString (directive : Bytes → List Bytes → Option String)
    (sentinel : σ → List Bytes → Except String σ) (config : Bytes) (st : σ) :
    Except String σ :=
  ((cstr config).splitOn 10).foldlM (loadLine directive sentinel) st

/-- `loadServerConfig` of a file. -/
def loadServerConfig (directive : Bytes → List Bytes → Option String)
    (sentinel : σ → List Bytes → Except String σ) (file : Bytes) (st : σ) :
    Except String σ :=
  loadServerConfigFromString directive sentinel ((fgetsLoop [] file).flatMap cstr) st

end Load

end Redis.Config
