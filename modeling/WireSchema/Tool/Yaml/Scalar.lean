import WireSchema.Text.Scan
import WireSchema.Tool.ConfigValue

/-!
# Scalars of YAML

A scalar is a text that may go on over several lines.  In a *flow* scalar, plain or
between quotes, line breaks are folded: a single one is a blank, of several in a row
all but the first count, and the blanks around them do not.  In a *block* scalar,
which stands below its mark, lines keep their breaks, or are folded where neither
of two lines is indented further.

Only a plain scalar can be anything but a text.  What it is shows from its
characters, unless a tag says it.
-/

namespace WireSchema
namespace Tool
namespace Yaml

open Text (Scan)

/-! ## Folding -/

/-- What has been read since the last visible character of a flow scalar. -/
inductive Pending where
  | blanks (cs : List Char)
  /-- So many line breaks, of which the first counts as a blank. -/
  | breaks (n : Nat)
  /-- A line break that was hidden, and so many behind it. -/
  | hidden (n : Nat)

/-- A flow scalar as far as it has been read: its characters, the last one first,
and what may have to be put behind them. -/
structure Fold where
  kept : List Char
  pending : Pending

namespace Fold

/-- Nothing read. -/
def start : Fold := ⟨[], .blanks []⟩

/-- The characters with what is pending behind them. -/
def flushed (f : Fold) : List Char :=
  match f.pending with
  | .blanks cs => cs.reverse ++ f.kept
  | .breaks 1 => ' ' :: f.kept
  | .breaks n => List.replicate (n - 1) '\n' ++ f.kept
  | .hidden n => List.replicate n '\n' ++ f.kept

/-- One more visible character. -/
def visible (f : Fold) (c : Char) : Fold :=
  ⟨c :: f.flushed, .blanks []⟩

/-- One more blank; at the beginning of a line it does not count. -/
def blank (f : Fold) (c : Char) : Fold :=
  match f.pending with
  | .blanks cs => { f with pending := .blanks (cs ++ [c]) }
  | _ => f

/-- One more line break. -/
def lineBreak (f : Fold) : Fold :=
  { f with
    pending :=
      match f.pending with
      | .blanks _ => .breaks 1
      | .breaks n => .breaks (n + 1)
      | .hidden n => .hidden (n + 1) }

/-- A line break that is hidden by a backslash. -/
def hiddenBreak (f : Fold) : Fold :=
  ⟨f.flushed, .hidden 0⟩

/-- Whether a line begins here. -/
def atLine (f : Fold) : Bool :=
  match f.pending with
  | .blanks _ => false
  | _ => true

/-- The text up to the last visible character. -/
def text (f : Fold) : List Char :=
  f.kept.reverse

/-- The text with what is pending. -/
def wholeText (f : Fold) : List Char :=
  f.flushed.reverse

end Fold

/-! ## Quoted scalars -/

/-- The character that an escape of one letter stands for. -/
def escape? : Char → Option Char
  | '0' => some '\x00'
  | 'a' => some '\x07'
  | 'b' => some '\x08'
  | 't' => some '\t'
  | '\t' => some '\t'
  | 'n' => some '\n'
  | 'v' => some '\x0b'
  | 'f' => some '\x0c'
  | 'r' => some '\r'
  | 'e' => some '\x1b'
  | ' ' => some ' '
  | '"' => some '"'
  | '/' => some '/'
  | '\\' => some '\\'
  | 'N' => some '\u0085'
  | '_' => some '\u00a0'
  | 'L' => some '\u2028'
  | 'P' => some '\u2029'
  | _ => none

/-- The character of hexadecimal digits. -/
def hexChar? (digits : List Char) : Option Char :=
  (Numeral.natural? 16 digits).bind Text.char?

/-- The body of a scalar between double quotes. -/
def doubleQuoted (f : Fold) : Scan (List Char)
  | [] => none
  | '"' :: cs => some (f.wholeText, cs)
  | '\\' :: '\n' :: cs => doubleQuoted f.hiddenBreak cs
  | '\\' :: 'x' :: a :: b :: cs => do
    doubleQuoted (f.visible (← hexChar? [a, b])) cs
  | '\\' :: 'u' :: a :: b :: c :: d :: cs => do
    doubleQuoted (f.visible (← hexChar? [a, b, c, d])) cs
  | '\\' :: 'U' :: a :: b :: c :: d :: e :: f' :: g :: h :: cs => do
    doubleQuoted (f.visible (← hexChar? [a, b, c, d, e, f', g, h])) cs
  | '\\' :: c :: cs => do doubleQuoted (f.visible (← escape? c)) cs
  | c :: cs =>
    if c = '\n' then doubleQuoted f.lineBreak cs
    else if c = ' ' || c = '\t' then doubleQuoted (f.blank c) cs
    else doubleQuoted (f.visible c) cs

/-- The body of a scalar between single quotes, of which a doubled one stands for
itself. -/
def singleQuoted (f : Fold) : Scan (List Char)
  | [] => none
  | '\x27' :: '\x27' :: cs => singleQuoted (f.visible '\x27') cs
  | c :: cs =>
    if c = '\x27' then some (f.wholeText, cs)
    else if c = '\n' then singleQuoted f.lineBreak cs
    else if c = ' ' || c = '\t' then singleQuoted (f.blank c) cs
    else singleQuoted (f.visible c) cs

/-- A quoted scalar, if one begins here. -/
def quoted : Scan String
  | '"' :: cs => (doubleQuoted .start cs).map fun (body, cs) => (String.ofList body, cs)
  | '\x27' :: cs => (singleQuoted .start cs).map fun (body, cs) => (String.ofList body, cs)
  | _ => none

/-! ## Plain scalars -/

/-- Whether a blank, a line break or the end comes next. -/
def atBlank : List Char → Bool
  | [] => true
  | c :: _ => c = ' ' || c = '\t' || c = '\n'

/-- The characters that begin, separate and end collections in a row. -/
def isFlowMark (c : Char) : Bool :=
  c = ',' || c = '[' || c = ']' || c = '\x7b' || c = '\x7d'

/-- Whether the mark between two documents, or behind one, comes next. -/
def atMarker : List Char → Bool
  | '-' :: '-' :: '-' :: cs => atBlank cs
  | '.' :: '.' :: '.' :: cs => atBlank cs
  | _ => false

/-- Whether a colon behind a key comes next. -/
def atColon (inFlow : Bool) : List Char → Bool
  | ':' :: cs =>
    atBlank cs || (inFlow && match cs with
      | c :: _ => isFlowMark c
      | [] => true)
  | _ => false

/-- Where a plain scalar has to stop. -/
structure PlainLimits where
  /-- Whether it stands in a collection in a row. -/
  inFlow : Bool
  /-- The least column of its further lines; none if it has a single line. -/
  least : Option Nat

/-- Whether a plain scalar stops in front of these characters. -/
def PlainLimits.stop (l : PlainLimits) (column : Nat) (f : Fold) (behindBlank : Bool)
    (cs : List Char) : Bool :=
  match cs with
  | [] => true
  | c :: _ =>
    (c = '\n' && l.least.isNone) || (c = '#' && behindBlank) || atColon l.inFlow cs ||
      (l.inFlow && isFlowMark c) || (column = 0 && f.atLine && atMarker cs) ||
      (f.atLine && c ≠ ' ' && c ≠ '\t' && c ≠ '\n' && !l.inFlow && column < l.least.getD 0)

/-- The body of a plain scalar, and what is behind it. -/
def plainBody (l : PlainLimits) (column : Nat) (f : Fold) (behindBlank : Bool) (cs : List Char) :
    List Char × List Char :=
  if l.stop column f behindBlank cs then (f.text, cs)
  else
    match cs with
    | [] => (f.text, [])
    | c :: cs =>
      if c = '\n' then plainBody l 0 f.lineBreak true cs
      else if c = ' ' || c = '\t' then plainBody l (column + 1) (f.blank c) true cs
      else plainBody l (column + 1) (f.visible c) false cs

/-- Whether a plain scalar can begin here. -/
def canBeginPlain (inFlow : Bool) : List Char → Bool
  | [] => false
  | c :: cs =>
    if c = '-' || c = '?' || c = ':' then
      !atBlank cs && !(inFlow && cs.head?.any isFlowMark)
    else !(isFlowMark c || (c ∈ ['#', '&', '*', '!', '|', '>', '\x27', '"', '%', '@', '\x60']) ||
      atBlank (c :: cs))

/-- A plain scalar, if one begins here. -/
def plain (l : PlainLimits) (column : Nat) (cs : List Char) : Option (List Char × List Char) :=
  if canBeginPlain l.inFlow cs then some (plainBody l column .start false cs) else none

/-- The words for numbers that no configuration can hold. -/
def isUnbounded (s : String) : Bool :=
  s ∈ [".inf", ".Inf", ".INF", "+.inf", "+.Inf", "+.INF", "-.inf", "-.Inf", "-.INF", ".nan",
    ".NAN"]

/-- A number that is no whole number, if the scalar is one, and nothing if it is one
that no configuration can hold. -/
def real (cs : List Char) (otherwise : ConfigValue) : Option ConfigValue :=
  if isUnbounded (String.ofList cs) then none
  else some (((Numeral.double? cs).map .float).getD otherwise)

/-- A whole number as a plain scalar writes it. -/
def whole? (cs : List Char) : Option Int :=
  match cs with
  | '0' :: 'x' :: digits => Numeral.int64In? 16 digits
  | '0' :: 'o' :: digits => Numeral.int64In? 8 digits
  | cs => Numeral.int64? cs

/-- What a plain scalar is without a tag. -/
def untagged (cs : List Char) : Option ConfigValue :=
  match String.ofList cs with
  | "~" => some .nothing
  | "null" => some .nothing
  | "true" => some (.bool true)
  | "false" => some (.bool false)
  | s =>
    match whole? cs with
    | some i => some (.int i)
    | none => real cs (.text s)

/-- What a plain scalar is with a tag.  A scalar that is not what its tag says is
nothing, and a tag of another sort makes it a text. -/
def tagged (tag : String) (cs : List Char) : Option ConfigValue :=
  match tag with
  | "!!bool" =>
    match String.ofList cs with
    | "true" => some (.bool true)
    | "false" => some (.bool false)
    | _ => some .nothing
  | "!!int" => some (((Numeral.int64? cs).map .int).getD .nothing)
  | "!!float" => real cs .nothing
  | "!!null" => some .nothing
  | _ => some (.text (String.ofList cs))

/-- What a plain scalar is. -/
def resolve (tag : Option String) (cs : List Char) : Option ConfigValue :=
  match tag with
  | none => untagged cs
  | some tag => tagged tag cs

/-! ## Block scalars -/

/-- What happens to the line breaks at the end of a block scalar. -/
inductive Chomp where
  /-- None is kept. -/
  | strip
  /-- One is kept. -/
  | clip
  /-- All are kept. -/
  | keep

/-- What stands behind the mark of a block scalar: how far the text is indented, if
it is said, and what happens to the breaks at its end. -/
structure BlockHeader where
  indent : Option Nat
  chomp : Chomp

/-- The rest of the line of a block scalar's mark. -/
def blockHeader (h : BlockHeader) : List Char → BlockHeader
  | [] => h
  | c :: cs =>
    if c = '+' then blockHeader { h with chomp := .keep } cs
    else if c = '-' then blockHeader { h with chomp := .strip } cs
    else if c.isDigit then blockHeader { h with indent := some (c.toNat - 48) } cs
    else h

/-- The blanks in front of a line. -/
def indentOf (l : List Char) : Nat :=
  (l.takeWhile (· = ' ')).length

/-- Whether a line belongs to a block scalar with this indentation. -/
def isInBlock (indent : Nat) (l : List Char) : Bool :=
  indent ≤ indentOf l || l.all (· = ' ')

/-- The indentation of a block scalar that does not say it: that of its first line
with a visible character, and at least `least`. -/
def foundIndent (least : Nat) (lines : List (List Char)) : Nat :=
  max least (((lines.find? fun l => !l.all (· = ' ')).map indentOf).getD 0)

/-- A block scalar as far as it has been read: its text, the break behind its last
line, the breaks of empty lines behind that, and whether that line was indented
further. -/
structure BlockDraft where
  body : List Char
  lastBreak : List Char
  emptyBreaks : List Char
  further : Bool

/-- One more line of a block scalar, without its indentation. -/
def BlockDraft.add (folded : Bool) (d : BlockDraft) (l : List Char) : BlockDraft :=
  match l with
  | [] => { d with emptyBreaks := d.emptyBreaks ++ ['\n'] }
  | c :: _ =>
    let further := c = ' ' || c = '\t'
    let between :=
      if folded && !d.lastBreak.isEmpty && !d.further && !further then
        if d.emptyBreaks.isEmpty then [' '] else d.emptyBreaks
      else d.lastBreak ++ d.emptyBreaks
    ⟨d.body ++ between ++ l, ['\n'], [], further⟩

/-- The text of a block scalar. -/
def BlockDraft.text (chomp : Chomp) (d : BlockDraft) : List Char :=
  match chomp with
  | .strip => d.body
  | .clip => d.body ++ d.lastBreak
  | .keep => d.body ++ d.lastBreak ++ d.emptyBreaks

/-- The text of a block scalar behind its mark, and the lines behind it, of which
the last one does not end in a break.  Its text is indented by at least `least`. -/
def blockText (folded : Bool) (least : Nat) (cs : List Char) : List Char × List Char :=
  let header := blockHeader ⟨none, .clip⟩ cs
  let lines := ((String.ofList ((Text.fromBreak cs).drop 1)).splitOn "\n").map String.toList
  let indent := (header.indent.map (· + (least - 1))).getD (foundIndent (max 1 least) lines)
  let inside := lines.takeWhile (isInBlock indent)
  let behind := lines.dropWhile (isInBlock indent)
  let full := if behind.isEmpty && inside.getLast? = some [] then inside.dropLast else inside
  let draft := (full.map (List.drop indent)).foldl (BlockDraft.add folded) ⟨[], [], [], true⟩
  -- The last line of the file has no break if the file does not end in one.
  let draft := if behind.isEmpty && full.length = inside.length then
    { draft with lastBreak := [] } else draft
  (draft.text header.chomp, "\n".toList.intercalate behind)

end Yaml
end Tool
end WireSchema
