import ModCaucho.Registry.Returns

/-!
# Loading a file

What the rest of the plugin gets from `cse_parse`: the registry that it reads through
`first` and `next`, or NULL, and `config->error`. An error that was recorded before can be
overwritten by another one, but it is never cleared, and it has no influence on what is
read.
-/

namespace ModCaucho

open LinkedForest

/-- What the server finds on the machine that it starts on: the files with the depth to
which they include each other, the addresses that `gethostbyname` has, and where relative
paths begin. -/
structure Machine where
  fresh : Fresh
  files : Files
  depth : ℕ
  hostent : Text → Option UInt32
  serverRoot : Text → Text

/-- `cse_parse` on a file that was opened, with the registry that it returns and with
`config->error`. No registry has a pointer into another one, so each has nodes of its own. -/
def Machine.parse (m : Machine) (path file : Text) (error : Option Text) :
    Except Stop (Option Registry × Option Text) :=
  match cseParse m.fresh m.files m.depth path file Heap.empty error with
  | .ok r => .ok (some (r.nodes.read r.nodes.size (some r.root)), r.error)
  | .error (.null error) => .ok (none, error)
  | .error stop => .error stop

/-! ## The error -/

/-- A failure behind an error that was recorded before. -/
def Stop.orError (error : Option Text) : Stop → Stop
  | null e => null (e.or error)
  | stop => stop

/-- A registry behind an error that was recorded before. -/
def Parsed.orError (error : Option Text) (r : Parsed) : Parsed :=
  { r with error := r.error.or error }

/-- The result of a parse behind an error that was recorded before. -/
def orError (error : Option Text) : Except Stop Parsed → Except Stop Parsed
  | .ok r => .ok (r.orError error)
  | .error stop => .error (stop.orError error)

/-- The parse reads the same whatever error was recorded before it, and keeps that error
if it records none. -/
def CarriesError (parse : Text → Text → Nodes → Option Text → Except Stop Parsed) : Prop :=
  ∀ path file nodes e error,
    parse path file nodes (Option.or e error) = orError error (parse path file nodes e)

namespace Parser

/-- A state of a parse behind an error that was recorded before. -/
def orError (error : Option Text) (s : Parser) : Parser := { s with error := s.error.or error }

/-- The result of a round behind an error that was recorded before. -/
def orErrorRound (error : Option Text) : Except Stop Parser → Except Stop Parser
  | .ok s => .ok (s.orError error)
  | .error stop => .error (stop.orError error)

variable {fresh : Fresh} {files : Files} {path : Text}
  {parse : Text → Text → Nodes → Option Text → Except Stop Parsed}

theorem setText_orError (error : Option Text) (s : Parser) :
    (s.orError error).setText = s.setText.orError error := by
  unfold setText orError
  simp only
  split
  · rfl
  · split <;> rfl

theorem includeCall_orError (error : Option Text) (s : Parser) :
    (s.orError error).includeCall files path =
      (s.includeCall files path).map fun call => { call with error := call.error.or error } := by
  unfold includeCall orError
  simp only
  cases (s.nodes.cell s.node).last with
  | none => rfl
  | some last =>
      simp only
      split
      · cases findValueAt s.nodes "href".toList s.nodes.size (s.nodes.cell last).first with
        | none => rfl
        | some value =>
            simp only
            split
            · rfl
            · cases files (includePath path value) <;> rfl
      · rfl

theorem resume_orError (error : Option Text) (s : Parser) (result : Except Stop Parsed) :
    (s.orError error).resume (ModCaucho.orError error result) =
      orErrorRound error (s.resume result) := by
  rcases result with stop | sub
  · cases stop <;> rfl
  · simp only [ModCaucho.orError, resume, orError, Parsed.orError]
    split
    · rfl
    · cases (s.nodes.cell s.node).last.bind fun last => splice sub.nodes last sub.root <;> rfl

theorem includeLast_orError (hparse : CarriesError parse) (error : Option Text) (s : Parser) :
    (s.orError error).includeLast files parse path =
      orErrorRound error (s.includeLast files parse path) := by
  rw [includeLast_eq, includeLast_eq, includeCall_orError]
  cases s.includeCall files path with
  | none => rfl
  | some call =>
      simp only [Option.map_some]
      rw [hparse call.path call.file call.nodes call.error error]
      exact resume_orError error s _

theorem step_orError (hparse : CarriesError parse) (error : Option Text) (s : Parser) (ch : Char) :
    (s.orError error).step fresh files parse path ch =
      orErrorRound error (s.step fresh files parse path ch) := by
  unfold step
  split
  · rfl
  · split
    · rfl
    · rw [setText_orError]
      have his : (s.setText.orError error).is = s.setText.is := rfl
      rcases hscan : scanMarkup fresh path s.setText.is with ⟨markup, e, is⟩
      simp only [his, hscan]
      cases markup with
      | skipped => simp [orErrorRound, orError, Option.or_assoc]
      | fail => simp [orErrorRound, orError, Stop.orError, Option.or_assoc]
      | tag tag =>
          rw [← includeLast_orError hparse]
          simp [orError, Option.or_assoc]
      | endTag =>
          simp only [orError]
          cases (s.setText.nodes.cell s.setText.node).parent with
          | none => rfl
          | some parent =>
              rw [← includeLast_orError hparse]
              simp [orError, Option.or_assoc]

theorem loop_orError (hparse : CarriesError parse) (error : Option Text) (fuel : ℕ) (s : Parser) :
    (s.orError error).loop fresh files parse path fuel =
      orErrorRound error (s.loop fresh files parse path fuel) := by
  induction fuel generalizing s with
  | zero => rfl
  | succ fuel ih =>
      have his : (s.orError error).is = s.is := rfl
      rcases hread : bufRead s.is with ⟨ch, is⟩
      rw [loop, loop, his, hread]
      cases ch with
      | none => rfl
      | some ch =>
          have hstep : (orError error { s with is := is }).step fresh files parse path ch =
              orErrorRound error (step fresh files parse path { s with is := is } ch) :=
            step_orError hparse error _ ch
          simp only
          rw [show ({ s.orError error with is := is } : Parser) =
            orError error { s with is := is } from rfl, hstep]
          cases step fresh files parse path { s with is := is } ch with
          | error stop => rfl
          | ok s' => exact ih s'

end Parser

/-- What `cse_parse` reads does not depend on the error, and it keeps the error that it
finds unless it records another one. -/
theorem cseParse_orError (fresh : Fresh) (files : Files) (depth : ℕ) :
    CarriesError (cseParse fresh files depth) := by
  induction depth with
  | zero => exact fun _ _ _ _ _ => rfl
  | succ depth ih =>
      intro path file nodes e error
      have hloop : ((Parser.start file nodes e).orError error).loop fresh files
          (cseParse fresh files depth) path (file.length + 1) =
          Parser.orErrorRound error ((Parser.start file nodes e).loop fresh files
            (cseParse fresh files depth) path (file.length + 1)) :=
        Parser.loop_orError ih error _ _
      rw [show (Parser.start file nodes e).orError error = .start file nodes (e.or error) from rfl]
        at hloop
      rw [cseParse, cseParse, parseFile, parseFile, hloop]
      cases Parser.loop fresh files (cseParse fresh files depth) path (file.length + 1)
        (.start file nodes e) <;> rfl

namespace Machine

variable (m : Machine)

/-- The registry that `cse_parse` returns for a file, as if it were the first one. -/
def parsed (path file : Text) : Except Stop (Option Registry × Option Text) :=
  m.parse path file none

theorem parse_eq (path file : Text) (error : Option Text) :
    m.parse path file error = (m.parsed path file).map fun r => (r.1, r.2.or error) := by
  have hcarries := cseParse_orError m.fresh m.files m.depth path file Heap.empty none error
  rw [Option.none_or] at hcarries
  rw [parsed, parse, parse, hcarries]
  rcases cseParse m.fresh m.files m.depth path file Heap.empty none with stop | r
  · cases stop <;> rfl
  · rfl

end Machine

/-- The bound on the reading is never reached: the registry is read to its end. -/
theorem Parsed.read_fuel {before : Nodes} {r : Parsed} (h : r.Keeps before) {fuel : ℕ}
    (hfuel : r.nodes.size ≤ fuel) :
    r.nodes.read fuel (some r.root) = r.nodes.read r.nodes.size (some r.root) := by
  refine h.ordered.read_fuel (fun p hp => ?_) (fun p hp => ?_) (fun p hp => ?_)
  all_goals cases hp
  · exact ⟨h.root_eq.ge, h.root_lt⟩
  · omega
  · omega

end ModCaucho
