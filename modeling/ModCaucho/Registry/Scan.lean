import ModCaucho.Registry.Tree

/-!
# Reading markup

The reading half of the parser of `registry.c`: characters from the file, tokens
into the expandable buffer, and the functions that read attributes, tags, end tags
and what is skipped. None of it looks at the tree, so each function here returns
what it has read, and the tree is built from that.

Memory that `cse_alloc` returns has arbitrary contents: `fresh n` are the bytes of
a block of `n` bytes.
-/

namespace ModCaucho

/-- The reading state of `rstream_t`. The list `buf` is `buf[0 .. length)`, and `block`
is the number of bytes that were allocated for it. -/
structure Rstream where
  file : Text
  line : ℕ
  buf : Text
  capacity : ℕ
  block : ℕ
deriving DecidableEq, Repr

/-- The contents of the blocks that `cse_alloc` returns. -/
abbrev Fresh := ℕ → ℕ → Char

/-- The stream that `cse_parse` begins with. -/
def Rstream.start (file : Text) : Rstream := ⟨file, 1, [], 1024, 1024⟩

/-- `buf_read`, which gives no character at the end of the file. -/
def bufRead (is : Rstream) : Option Char × Rstream :=
  match is.file with
  | [] => (none, is)
  | ch :: file =>
      (some ch, { is with file := file, line := if ch = '\n' then is.line + 1 else is.line })

/-- `ungetc` -/
def ungetc (ch : Option Char) (is : Rstream) : Rstream := { is with file := ch.toList ++ is.file }

/-- `buf_append`. The new block of a full buffer does not get the old contents. -/
def bufAppend (fresh : Fresh) (is : Rstream) (ch : Char) : Rstream :=
  let is :=
    if is.buf.length + 2 ≥ is.capacity then
      let capacity := 2 * is.capacity
      { is with
        capacity := capacity
        block := 2 * capacity
        buf := (List.range is.buf.length).map (fresh (2 * capacity)) }
    else is
  { is with buf := is.buf ++ [ch] }

/-- What `cse_strdup` makes of the buffer. -/
def cString (buf : Text) : Text := buf.takeWhile (· ≠ '\x00')

/-- `isspace` -/
def isSpace (ch : Char) : Bool :=
  ch == ' ' || ch == '\t' || ch == '\n' || ch == '\x0b' || ch == '\x0c' || ch == '\r'

/-- `for (; ch >= 0 && p(ch); ch = buf_read(is)) f(is, ch)`. The characters that are left
bound the rounds. -/
def forWhile (p : Char → Bool) (f : Rstream → Char → Rstream) :
    ℕ → Option Char → Rstream → Option Char × Rstream
  | fuel + 1, some ch, is =>
      if p ch then
        let (ch, is) := bufRead (f is ch)
        forWhile p f fuel ch is
      else (some ch, is)
  | _, ch, is => (ch, is)

/-- The loops that skip white space. -/
def skipSpace (ch : Option Char) (is : Rstream) : Option Char × Rstream :=
  forWhile isSpace (fun is _ => is) (is.file.length + 1) ch is

/-- The loops that read a token, which is then all that is in the buffer. -/
def readToken (fresh : Fresh) (p : Char → Bool) (ch : Option Char) (is : Rstream) :
    Option Char × Rstream :=
  forWhile p (bufAppend fresh) (is.file.length + 1) ch { is with buf := [] }

/-! ## Messages -/

/-- `%c`, which prints the end of the file as the byte 255. -/
def percentC (ch : Option Char) : Text := [ch.getD 'ÿ']

/-- The text of an error with its place, `"%s:%d: %s\n"`. -/
def errorAt (path : Text) (is : Rstream) (message : Text) : Text :=
  path ++ ':' :: Nat.toDigits 10 is.line ++ ": ".toList ++ message ++ ['\n']

/-- `what at '%c'` -/
def unexpected (what : String) (ch : Option Char) : Text :=
  what.toList ++ " at '".toList ++ percentC ch ++ ['\'']

/-! ## Tags -/

/-- An attribute, and its value if it has one. -/
structure Attr where
  name : Text
  value : Option Text
deriving DecidableEq, Repr

/-- The result of `parse_attribute`: `-1` with the message that was set, `0`, or the
next character. -/
inductive AttrEnd
  | fail (error : Option Text)
  | done
  | more (ch : Char)

/-- The reading of `parse_attribute` -/
def scanAttribute (fresh : Fresh) (path : Text) (ch : Option Char) (is : Rstream) :
    Option Attr × AttrEnd × Rstream :=
  let (ch, is) := skipSpace ch is
  let (ch, is) :=
    readToken fresh (fun ch => !isSpace ch && ch != '=' && ch != '/' && ch != '>') ch is
  if is.buf = [] then (none, .done, ungetc ch is)
  else
    let name := cString is.buf
    let (ch, is) := skipSpace ch is
    if ch ≠ some '=' then (some ⟨name, none⟩, .done, ungetc ch is)
    else
      let (ch, is) := bufRead is
      let (ch, is) := skipSpace ch is
      if ch = none ∨ ch = some '/' ∨ ch = some '>' then
        (some ⟨name, none⟩, .fail (errorAt path is (unexpected "expected attribute" ch)), is)
      else if ch = some '\'' ∨ ch = some '"' then
        let quote := ch
        let (ch, is) := bufRead is
        let (ch, is) := readToken fresh (fun ch => some ch != quote) ch is
        if ch ≠ quote then
          let expected := "expected '".toList ++ percentC quote ++ "' at '".toList ++ percentC ch
          (some ⟨name, none⟩, .fail (errorAt path is (expected ++ ['\''])), is)
        else (some ⟨name, some (cString is.buf)⟩, .more ' ', is)
      else
        let (ch, is) := readToken fresh (fun ch => !isSpace ch && ch != '/' && ch != '>') ch is
        let stop : AttrEnd :=
          match ch with
          | none => .fail none
          | some ch => .more ch
        (some ⟨name, some (cString is.buf)⟩, stop, is)

/-- The loop of `parse_tag` over the attributes, and whether the last one failed. A round
that goes on has read a `=`, so the characters that are left bound the rounds. -/
def scanAttributes (fresh : Fresh) (path : Text) :
    ℕ → Option Char → Rstream → List Attr × Bool × Rstream
  | 0, _, is => ([], true, is)
  | fuel + 1, ch, is =>
      match scanAttribute fresh path ch is with
      | (attr, .more ch, is) =>
          let (attrs, failed, is) := scanAttributes fresh path fuel (some ch) is
          (attr.toList ++ attrs, failed, is)
      | (attr, .done, is) => (attr.toList, false, is)
      | (attr, .fail _, is) => (attr.toList, true, is)

/-- A start tag. -/
structure Tag where
  name : Text
  attrs : List Attr
  closed : Bool
deriving DecidableEq, Repr

/-- The characters of a name in a tag. -/
def isTagChar (ch : Char) : Bool := !isSpace ch && ch != '/' && ch != '>'

/-- The reading of `parse_tag`. The message of a failed attribute is overwritten. -/
def scanTag (fresh : Fresh) (path : Text) (ch : Option Char) (is : Rstream) :
    Except Text Tag × Rstream :=
  let (ch, is) := readToken fresh isTagChar ch is
  if is.buf = [] then (.error (errorAt path is (unexpected "unexpected char" ch)), is)
  else
    let name := cString is.buf
    let (attrs, failed, is) := scanAttributes fresh path (is.file.length + 1) ch is
    if failed then (.error (errorAt path is "unexpected end of file".toList), is)
    else
      let (ch, is) := bufRead is
      let (ch, is) := skipSpace ch is
      if ch = some '>' then (.ok ⟨name, attrs, false⟩, is)
      else if ch ≠ some '/' then (.error (errorAt path is (unexpected "expected '/'" ch)), is)
      else
        let (ch, is) := bufRead is
        if ch = some '>' then (.ok ⟨name, attrs, true⟩, is)
        else (.error (errorAt path is (unexpected "expected '>'" ch)), is)

/-- The reading of `parse_end_tag`. The name is not looked at. -/
def scanEndTag (fresh : Fresh) (path : Text) (is : Rstream) : Except Text Unit × Rstream :=
  let (ch, is) := bufRead is
  let (ch, is) := readToken fresh isTagChar ch is
  if is.buf = [] then (.error (errorAt path is (unexpected "expected end tag" ch)), is)
  else
    let (ch, is) := skipSpace ch is
    if ch ≠ some '>' then (.error (errorAt path is (unexpected "expected '>'" ch)), is)
    else (.ok (), is)

/-! ## What is skipped -/

/-- A loop that reads until `step` ends it, or to the end of the file. -/
def skipUntil {σ : Type} (step : σ → Char → Option σ) : Text → σ → Rstream → Bool × Rstream
  | [], _, is => (false, is)
  | ch :: file, s, is =>
      let is := (bufRead is).2
      match step s ch with
      | none => (true, is)
      | some s => skipUntil step file s is

/-- The nested loops of `skip_comment`, by the number of dashes just read. -/
def commentStep (dashes : ℕ) (ch : Char) : Option ℕ :=
  if ch = '-' then some (min (dashes + 1) 2)
  else if ch = '>' ∧ dashes = 2 then none
  else some 0

/-- The loops of `skip_doctype`, by the quote that is open. -/
def doctypeStep (quote : Option Char) (ch : Char) : Option (Option Char) :=
  match quote with
  | some q => some (if ch = q then none else some q)
  | none => if ch = '>' then none else some (if ch = '"' ∨ ch = '\'' then some ch else none)

/-- The loops of `skip_pi`, by whether a question mark was just read. -/
def piStep (question : Bool) (ch : Char) : Option Bool :=
  if ch = '>' ∧ question then none else some (ch == '?')

/-- Skip, and report an end that is missing. -/
def skip {σ : Type} (step : σ → Char → Option σ) (s : σ) (what : String) (path : Text)
    (is : Rstream) : Option Text × Rstream :=
  let (found, is) := skipUntil step is.file s is
  (if found then none
    else errorAt path is ("expected ".toList ++ what.toList ++ " end at end of file".toList), is)

/-- `skip_comment` -/
def skipComment (path : Text) (is : Rstream) : Option Text × Rstream :=
  skip commentStep 0 "comment" path is

/-- `skip_doctype` -/
def skipDoctype (path : Text) (is : Rstream) : Option Text × Rstream :=
  skip doctypeStep none "doctype" path is

/-- `skip_pi` -/
def skipPi (path : Text) (is : Rstream) : Option Text × Rstream := skip piStep false "pi" path is

/-- What `cse_parse` finds behind a `<`. -/
inductive Markup
  | skipped
  | tag (tag : Tag)
  | endTag
  | fail
deriving DecidableEq, Repr

/-- The message for a character of `<!--` that is not a dash. -/
def expectDash (path : Text) (ch : Option Char) (is : Rstream) : Option Text :=
  if ch = some '-' then none else errorAt path is (unexpected "expected comment start" ch)

/-- The reading of `cse_parse` behind a `<`, with the last message that was set. -/
def scanMarkup (fresh : Fresh) (path : Text) (is : Rstream) : Markup × Option Text × Rstream :=
  match bufRead is with
  | (some '!', is) =>
      match bufRead is with
      | (some 'D', is) => (.skipped, skipDoctype path is)
      | (ch, is) =>
          let error := expectDash path ch is
          let (ch, is) := bufRead is
          let error := (expectDash path ch is).or error
          let (error', is) := skipComment path is
          (.skipped, error'.or error, is)
  | (some '?', is) => (.skipped, skipPi path is)
  | (some '/', is) =>
      match scanEndTag fresh path is with
      | (.ok _, is) => (.endTag, none, is)
      | (.error error, is) => (.fail, some error, is)
  | (ch, is) =>
      match scanTag fresh path ch is with
      | (.ok tag, is) => (.tag tag, none, is)
      | (.error error, is) => (.fail, some error, is)

end ModCaucho
