import ModCaucho.Registry.Progress

/-!
# Calls of the parser

Which calls of itself `cse_parse` makes through `parse_include`: a round makes one at most,
behind a tag, and waits for it. So a parse ends if the calls that it makes do, and then
with the same result however deep the calls may go.
-/

namespace ModCaucho

open LinkedForest

/-- The arguments of a call of `cse_parse`. -/
structure ParseCall where
  path : Text
  file : Text
  nodes : Nodes
  error : Option Text

namespace Parser

/-- The call that the test behind a tag makes. -/
def includeCall (files : Files) (path : Text) (s : Parser) : Option ParseCall :=
  match (s.nodes.cell s.node).last with
  | none => none
  | some last =>
      if (s.nodes.cell last).data.key = includeKey then
        match findValueAt s.nodes "href".toList s.nodes.size (s.nodes.cell last).first with
        | none => none
        | some value =>
            if value = [] then none
            else (files (includePath path value)).map fun file =>
              ⟨includePath path value, file, s.nodes, s.error⟩
      else none

/-- What `parse_include` makes of the result of the call. -/
def resume (s : Parser) : Except Stop Parsed → Except Stop Parser
  | .error (.null error) => .ok { s with error := error }
  | .error stop => .error stop
  | .ok sub =>
      if (sub.nodes.cell sub.root).first = none then
        .ok { s with nodes := sub.nodes, error := sub.error }
      else
        match (s.nodes.cell s.node).last.bind fun last => splice sub.nodes last sub.root with
        | none => .error .crash
        | some nodes => .ok { s with nodes := nodes, error := sub.error }

variable {fresh : Fresh} {files : Files} {path : Text}
  {parse parse' : Text → Text → Nodes → Option Text → Except Stop Parsed} {s s' : Parser}

/-- The test behind a tag is the call that it makes. -/
theorem includeLast_eq (s : Parser) :
    s.includeLast files parse path =
      match s.includeCall files path with
      | none => .ok s
      | some call => s.resume (parse call.path call.file call.nodes call.error) := by
  unfold includeLast includeCall
  cases hlast : (s.nodes.cell s.node).last with
  | none => rfl
  | some last =>
      simp only
      split
      · unfold parseInclude
        cases findValueAt s.nodes "href".toList s.nodes.size (s.nodes.cell last).first with
        | none => rfl
        | some value =>
            simp only
            split
            · rfl
            · cases files (includePath path value) with
              | none => rfl
              | some file =>
                  simp only [Option.map_some, resume, hlast, Option.bind_some]
                  rcases parse (includePath path value) file s.nodes s.error with stop | sub
                  · cases stop <;> rfl
                  · simp only
                    split
                    · rfl
                    · cases splice sub.nodes last sub.root <;> rfl
      · rfl

theorem resume_endless_iff (s : Parser) (result : Except Stop Parsed) :
    s.resume result = .error .endless ↔ result = .error .endless := by
  rcases result with stop | sub
  · cases stop <;> simp [resume]
  · simp only [resume, reduceCtorEq, iff_false]
    split
    · simp
    · split <;> simp

/-- What an included file can change. -/
theorem resume_cases {result : Except Stop Parsed} (h : s.resume result = .ok s') :
    ∃ nodes error, s' = { s with nodes := nodes, error := error } ∧
      (nodes = s.nodes ∨ ∃ sub, result = .ok sub ∧
        (nodes = sub.nodes ∨ ∃ last, (s.nodes.cell s.node).last = some last ∧
          splice sub.nodes last sub.root = some nodes)) := by
  rcases result with stop | sub
  · cases stop with
    | null error =>
        cases h
        exact ⟨_, _, rfl, Or.inl rfl⟩
    | crash => cases h
    | endless => cases h
  · unfold resume at h
    simp only at h
    split at h
    · cases h
      exact ⟨_, _, rfl, Or.inr ⟨sub, rfl, Or.inl rfl⟩⟩
    · split at h
      · cases h
      · next nodes hsplice =>
          cases h
          exact ⟨_, _, rfl, Or.inr ⟨sub, rfl, Or.inr (Option.bind_eq_some_iff.mp hsplice)⟩⟩

/-- A call is made with the variables of `cse_parse`. -/
theorem includeCall_spec {call : ParseCall} (h : s.includeCall files path = some call) :
    files call.path = some call.file ∧ call.nodes = s.nodes ∧ call.error = s.error := by
  unfold includeCall at h
  split at h
  · cases h
  · split at h
    · split at h
      · cases h
      · split at h
        · cases h
        · obtain ⟨file, hfile, rfl⟩ := Option.map_eq_some_iff.mp h
          exact ⟨hfile, rfl, rfl⟩
    · cases h

/-! ## The calls of a run -/

/-- The call that a round makes. -/
def roundCall (fresh : Fresh) (files : Files) (path : Text) (s : Parser) (ch : Char) :
    Option ParseCall :=
  match s.turn fresh path ch with
  | .ok (true, s') => s'.includeCall files path
  | _ => none

/-- A round makes one call at most, and waits for it. -/
theorem step_eq_roundCall (s : Parser) (ch : Char) :
    s.step fresh files parse path ch =
      match s.turn fresh path ch, s.roundCall fresh files path ch with
      | .error stop, _ => .error stop
      | .ok (_, s'), none => .ok s'
      | .ok (_, s'), some call => s'.resume (parse call.path call.file call.nodes call.error) := by
  rw [step_eq_turn, roundCall]
  rcases s.turn fresh path ch with stop | ⟨tagged, s'⟩
  · rfl
  · cases tagged with
    | false => rfl
    | true =>
        simp only [includeLast_eq]
        cases s'.includeCall files path <;> rfl

/-- A round that goes on. -/
theorem step_cases {ch : Char} (h : s.step fresh files parse path ch = .ok s') :
    ∃ tagged s₁, s.turn fresh path ch = .ok (tagged, s₁) ∧
      (s.roundCall fresh files path ch = none ∧ s' = s₁ ∨
        ∃ call, s₁.includeCall files path = some call ∧
          s₁.resume (parse call.path call.file call.nodes call.error) = .ok s') := by
  rw [step_eq_roundCall] at h
  unfold roundCall at h ⊢
  rcases hturn : s.turn fresh path ch with stop | ⟨tagged, s₁⟩
  · rw [hturn] at h
    cases h
  · refine ⟨tagged, s₁, rfl, ?_⟩
    cases tagged with
    | false =>
        simp only [hturn, Except.ok.injEq] at h
        exact Or.inl ⟨rfl, h.symm⟩
    | true =>
        simp only [hturn] at h ⊢
        cases hcall : s₁.includeCall files path with
        | none =>
            simp only [hcall, Except.ok.injEq] at h
            exact Or.inl ⟨rfl, h.symm⟩
        | some call =>
            simp only [hcall] at h
            exact Or.inr ⟨call, rfl, h⟩

/-- A round gives nothing back to the file. -/
theorem step_onward {ch : Char} (h : s.step fresh files parse path ch = .ok s') :
    Onward none s.is none s'.is := by
  obtain ⟨tagged, s₁, hturn, ⟨-, rfl⟩ | ⟨call, -, hresume⟩⟩ := step_cases h
  · exact turn_onward hturn
  · have hturned := turn_onward hturn
    obtain ⟨nodes, error, rfl, -⟩ := resume_cases hresume
    exact hturned

/-- Only a call can keep a round from its end. -/
theorem roundCall_of_endless {ch : Char}
    (h : s.step fresh files parse path ch = .error .endless) :
    ∃ call, s.roundCall fresh files path ch = some call ∧
      parse call.path call.file call.nodes call.error = .error .endless := by
  have hturn := @turn_ne_endless fresh path s ch
  rw [step_eq_roundCall] at h
  rcases hresult : s.turn fresh path ch with stop | ⟨tagged, s₁⟩
  · simp only [hresult, Except.error.injEq] at h
    exact absurd (h ▸ hresult) hturn
  · cases hcall : s.roundCall fresh files path ch with
    | none => simp [hresult, hcall] at h
    | some call =>
        simp only [hresult, hcall, resume_endless_iff] at h
        exact ⟨call, rfl, h⟩

/-- The loop ends if the calls that it makes do. -/
theorem loop_ne_endless {fuel : ℕ} (hfuel : s.is.file.length < fuel)
    (hcalls : ∀ round ∈ s.rounds fresh files parse path fuel, ∀ call,
      round.1.roundCall fresh files path round.2 = some call →
        parse call.path call.file call.nodes call.error ≠ .error .endless) :
    s.loop fresh files parse path fuel ≠ .error .endless := by
  induction fuel generalizing s with
  | zero => exact absurd hfuel (Nat.not_lt_zero _)
  | succ fuel ih =>
      rcases hread : bufRead s.is with ⟨ch, is⟩
      cases ch with
      | none =>
          rw [loop, hread]
          simp
      | some ch =>
          have hleft := bufRead_some_left hread
          rcases hstep : Parser.step fresh files parse path { s with is := is } ch with stop | s₁
          · have hne : stop ≠ .endless := by
              rintro rfl
              obtain ⟨call, hcall, hparse⟩ := roundCall_of_endless hstep
              refine hcalls ({ s with is := is }, ch) ?_ call hcall hparse
              rw [rounds, hread]
              exact List.mem_cons_self
            rw [loop, hread]
            simpa only [hstep, ne_eq, Except.error.injEq] using hne
          · have hless := (step_onward hstep).left
            simp only [charsLeft, Option.toList_none, List.length_nil, Nat.zero_add] at hless
            obtain ⟨hrounds, hloop⟩ := rounds_cons hread hstep fuel
            rw [hloop]
            rw [hrounds] at hcalls
            exact ih (by omega) fun round hround => hcalls round (List.mem_cons_of_mem _ hround)

/-! ## More depth -/

/-- A parse that ends has the same result in the other way. -/
def Settles (parse parse' : Text → Text → Nodes → Option Text → Except Stop Parsed) : Prop :=
  ∀ path file nodes error, parse path file nodes error ≠ .error .endless →
    parse' path file nodes error = parse path file nodes error

theorem step_settles (hparse : Settles parse parse') {ch : Char}
    (h : s.step fresh files parse path ch ≠ .error .endless) :
    s.step fresh files parse' path ch = s.step fresh files parse path ch := by
  rw [step_eq_roundCall] at h ⊢
  rw [step_eq_roundCall]
  rcases hturn : s.turn fresh path ch with stop | ⟨tagged, s₁⟩
  · rfl
  · cases hcall : s.roundCall fresh files path ch with
    | none => rfl
    | some call =>
        simp only [hturn, hcall, ne_eq, resume_endless_iff] at h ⊢
        rw [hparse _ _ _ _ h]

theorem loop_settles (hparse : Settles parse parse') {fuel : ℕ}
    (h : s.loop fresh files parse path fuel ≠ .error .endless) :
    s.loop fresh files parse' path fuel = s.loop fresh files parse path fuel := by
  induction fuel generalizing s with
  | zero => exact absurd rfl h
  | succ fuel ih =>
      unfold loop at h ⊢
      rcases hread : bufRead s.is with ⟨ch, is⟩
      cases ch with
      | none => rfl
      | some ch =>
          simp only [hread] at h ⊢
          rcases hstep : Parser.step fresh files parse path { s with is := is } ch with stop | s₁
          · have hne : Parser.step fresh files parse path { s with is := is } ch ≠
                .error .endless := by
              rw [hstep] at h ⊢
              exact h
            rw [step_settles hparse hne, hstep]
          · rw [step_settles hparse (by simp [hstep]), hstep]
            rw [hstep] at h
            exact ih h

end Parser

/-- More depth does not change a result. -/
theorem cseParse_settles {fresh : Fresh} {files : Files} {depth depth' : ℕ}
    (hle : depth ≤ depth') :
    Parser.Settles (cseParse fresh files depth) (cseParse fresh files depth') := by
  induction depth generalizing depth' with
  | zero => exact fun _ _ _ _ h => absurd rfl h
  | succ depth ih =>
      cases depth' with
      | zero => omega
      | succ depth' =>
          intro path file nodes error h
          have hloop : parseFile fresh files (cseParse fresh files depth) path file nodes error ≠
              .error .endless := by
            intro hend
            rw [cseParse, hend] at h
            exact h rfl
          have hsame : parseFile fresh files (cseParse fresh files depth') path file nodes error =
              parseFile fresh files (cseParse fresh files depth) path file nodes error :=
            Parser.loop_settles (ih (by omega)) hloop
          rw [cseParse, cseParse, hsame]

end ModCaucho
