import ModCaucho.Lib.LinkedForest
import ModCaucho.Registry.Scan

/-!
# The parser of the registry

The building half of the parser of `registry.c`: the nodes with their pointers, what
the functions that read markup do to them, the splicing of an included file, and
`cse_parse` itself. A pointer is an address in the heap or NULL; a step that would
follow NULL crashes. Files are read from a fixed table of their contents. Files can
include each other without end, so `cse_parse` has a bound on the depth.
-/

namespace ModCaucho

open LinkedForest

/-- The nodes of all registries. -/
abbrev Nodes := Heap Entry

/-- `registry_add` -/
def registryAdd (nodes : Nodes) (node : ℕ) (key : Text) : Nodes := nodes.addLast node ⟨key, none⟩

/-- `node->value = value` -/
def setValue (nodes : Nodes) (node : ℕ) (value : Text) : Nodes :=
  nodes.modify node fun c => { c with data := { c.data with value := some value } }

/-- What `parse_attribute` does to the tree. -/
def addAttribute (nodes : Nodes) (node : ℕ) (attr : Attr) : Nodes :=
  if attr.name = "id".toList then
    match attr.value with
    | some value => setValue nodes node value
    | none => nodes
  else
    let child := nodes.size
    let nodes := registryAdd nodes node attr.name
    match attr.value with
    | some value => setValue nodes child value
    | none => nodes

/-- What `parse_tag` does to the tree, and the node that is open behind the tag. -/
def addTag (nodes : Nodes) (node : ℕ) (tag : Tag) : Nodes × ℕ :=
  let child := nodes.size
  let nodes := registryAdd nodes node tag.name
  (tag.attrs.foldl (fun nodes attr => addAttribute nodes child attr) nodes,
    if tag.closed then node else child)

/-! ## Including a file -/

/-- Why a parse returns no registry: the file is malformed, NULL was followed, or the
bound on the depth was reached. -/
inductive Stop
  | null (error : Option Text)
  | crash
  | endless
deriving DecidableEq, Repr

/-- The registry that `cse_parse` returns, with `config->error`. -/
structure Parsed where
  nodes : Nodes
  root : ℕ
  error : Option Text

/-- The contents of the files that `fopen` opens. -/
abbrev Files := Text → Option Text

/-- The key of the element that includes a file. -/
def includeKey : Text := "resin:include".toList

/-- `cse_find_value` on the nodes -/
def findValueAt (nodes : Nodes) (key : Text) : ℕ → Option ℕ → Option Text
  | fuel + 1, some p =>
      if (nodes.cell p).data.key = key then (nodes.cell p).data.value
      else findValueAt nodes key fuel (nodes.cell p).next
  | _, _ => none

/-- The part of a path before its last slash or backslash. -/
def dirOf (path : Text) : Text :=
  ((path.reverse.dropWhile fun ch => ch ≠ '/' ∧ ch ≠ '\\').drop 1).reverse

/-- `subpath` of `parse_include` -/
def includePath (path value : Text) : Text :=
  if isAbsolute value then value else dirOf path ++ '/' :: value

/-- `for (ptr = subnode->first; ptr; ptr = ptr->next) ptr->parent = parent` -/
def setParents (parent : Option ℕ) : ℕ → Option ℕ → Nodes → Nodes
  | fuel + 1, some ptr, nodes =>
      setParents parent fuel (nodes.cell ptr).next
        (nodes.modify ptr fun c => { c with parent := parent })
  | _, _, nodes => nodes

/-- The splice of `parse_include`, which follows `node->parent`. -/
def splice (nodes : Nodes) (node subnode : ℕ) : Option Nodes :=
  (nodes.cell node).parent.map fun parent =>
    let nodes := nodes.modify subnode fun c => { c with parent := some parent }
    let prev := (nodes.cell node).prev
    let nodes :=
      match prev with
      | some prev => nodes.modify prev fun c => { c with next := (nodes.cell subnode).first }
      | none => nodes.modify parent fun c => { c with first := some subnode }
    let nodes := nodes.modify subnode fun c => { c with prev := prev }
    let nodes := nodes.modify parent fun c => { c with last := (nodes.cell subnode).last }
    setParents (some parent) nodes.size (nodes.cell subnode).first nodes

/-- `parse_include`, with `parse` for the call of `cse_parse`. A parse that fails leaves
only nodes that nothing points to. -/
def parseInclude (files : Files) (parse : Text → Text → Nodes → Option Text → Except Stop Parsed)
    (path : Text) (nodes : Nodes) (node : ℕ) (error : Option Text) :
    Except Stop (Nodes × Option Text) :=
  match findValueAt nodes "href".toList nodes.size (nodes.cell node).first with
  | none => .ok (nodes, error)
  | some value =>
      if value = [] then .ok (nodes, error)
      else
        let subpath := includePath path value
        match files subpath with
        | none => .ok (nodes, error)
        | some file =>
            match parse subpath file nodes error with
            | .error (.null error) => .ok (nodes, error)
            | .error stop => .error stop
            | .ok sub =>
                if (sub.nodes.cell sub.root).first = none then .ok (sub.nodes, sub.error)
                else
                  match splice sub.nodes node sub.root with
                  | none => .error .crash
                  | some nodes => .ok (nodes, sub.error)

/-! ## The loop -/

/-- The variables of `cse_parse`, with `config->error`. -/
structure Parser where
  is : Rstream
  spaceOnly : Bool
  nodes : Nodes
  root : ℕ
  node : ℕ
  error : Option Text

namespace Parser

/-- What `cse_parse` does when it comes to a `<`. -/
def setText (s : Parser) : Parser :=
  if s.spaceOnly then { s with is := { s.is with buf := [] } }
  else if (s.nodes.cell s.node).data.value = none ∧ (s.nodes.cell s.node).first = none then
    { s with nodes := setValue s.nodes s.node (cString s.is.buf) }
  else s

section

variable (fresh : Fresh) (files : Files)
  (parse : Text → Text → Nodes → Option Text → Except Stop Parsed) (path : Text)

/-- The test behind each tag whether the last child includes a file. -/
def includeLast (s : Parser) : Except Stop Parser :=
  match (s.nodes.cell s.node).last with
  | none => .ok s
  | some last =>
      if (s.nodes.cell last).data.key = includeKey then
        (parseInclude files parse path s.nodes last s.error).map fun result =>
          { s with nodes := result.1, error := result.2 }
      else .ok s

/-- One round of the loop of `cse_parse`, for a character that was read. -/
def step (s : Parser) (ch : Char) : Except Stop Parser :=
  if ch = ' ' ∨ ch = '\t' ∨ ch = '\n' ∨ ch = '\x0c' then
    .ok { s with is := bufAppend fresh s.is ch }
  else if ch ≠ '<' then .ok { s with is := bufAppend fresh s.is ch, spaceOnly := false }
  else
    let s := s.setText
    let (markup, error, is) := scanMarkup fresh path s.is
    let s := { s with is := is, error := error.or s.error }
    match markup with
    | .skipped => .ok s
    | .tag tag =>
        let (nodes, node) := addTag s.nodes s.node tag
        includeLast files parse path { s with nodes := nodes, node := node }
    | .endTag =>
        match (s.nodes.cell s.node).parent with
        | none => .error .crash
        | some parent => includeLast files parse path { s with node := parent }
    | .fail => .error (.null s.error)

/-- The loop of `cse_parse`. A round reads a character, so the characters that are left
bound the rounds. -/
def loop : ℕ → Parser → Except Stop Parser
  | 0, _ => .error .endless
  | fuel + 1, s =>
      match bufRead s.is with
      | (none, is) => .ok { s with is := is }
      | (some ch, is) =>
          match step fresh files parse path { s with is := is } ch with
          | .ok s => loop fuel s
          | .error stop => .error stop

end

/-- What `cse_parse` begins with. -/
def start (file : Text) (nodes : Nodes) (error : Option Text) : Parser where
  is := .start file
  spaceOnly := true
  nodes := nodes.alloc ⟨⟨[], none⟩, none, none, none, none, none⟩
  root := nodes.size
  node := nodes.size
  error := error

end Parser

/-- The state in which `cse_parse` comes to the end of the file. -/
def parseFile (fresh : Fresh) (files : Files)
    (parse : Text → Text → Nodes → Option Text → Except Stop Parsed) (path file : Text)
    (nodes : Nodes) (error : Option Text) : Except Stop Parser :=
  Parser.loop fresh files parse path (file.length + 1) (.start file nodes error)

/-- `cse_parse`, for files that include each other to this depth. -/
def cseParse (fresh : Fresh) (files : Files) :
    ℕ → Text → Text → Nodes → Option Text → Except Stop Parsed
  | 0, _, _, _, _ => .error .endless
  | depth + 1, path, file, nodes, error =>
      (parseFile fresh files (cseParse fresh files depth) path file nodes error).map fun s =>
        ⟨s.nodes, s.root, s.error⟩

end ModCaucho
