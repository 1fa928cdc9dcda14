import ModCaucho.Registry.Parse

/-!
# Progress of the reading

The functions that read markup give nothing back to the file but the one character that
they hold, so every loop among them ends: what is left of the file and the character that
is held are counted together. The bounds of the loops are never what stops them.
-/

namespace ModCaucho

/-- The characters that are still to be read, with the one that is held. -/
def charsLeft (ch : Option Char) (is : Rstream) : ℕ := ch.toList.length + is.file.length

/-- Reading goes on: no character comes back and the buffer does not get smaller. -/
structure Onward (ch : Option Char) (is : Rstream) (ch' : Option Char) (is' : Rstream) : Prop where
  left : charsLeft ch' is' ≤ charsLeft ch is
  room : is.capacity ≤ is'.capacity

variable {fresh : Fresh} {path : Text}

theorem Onward.trans {ch ch' ch'' : Option Char} {is is' is'' : Rstream} (h : Onward ch is ch' is')
    (h' : Onward ch' is' ch'' is'') : Onward ch is ch'' is'' :=
  ⟨Nat.le_trans h'.left h.left, Nat.le_trans h.room h'.room⟩

theorem charsLeft_le (ch : Option Char) (is : Rstream) :
    charsLeft ch is ≤ is.file.length + 1 := by
  cases ch <;> simp [charsLeft, Nat.add_comm]

/-- The character that is held is dropped. -/
theorem Onward.drop {ch ch' : Option Char} {is is' : Rstream} (h : Onward ch is ch' is') :
    Onward ch is none is' :=
  ⟨Nat.le_trans (by simp [charsLeft]) h.left, h.room⟩

/-- The character that is held goes back to the file. -/
theorem Onward.ungetc {ch ch' : Option Char} {is is' : Rstream} (h : Onward ch is ch' is') :
    Onward ch is none (ungetc ch' is') := by
  refine ⟨?_, h.room⟩
  have hback : charsLeft none (ModCaucho.ungetc ch' is') = charsLeft ch' is' := by
    simp [ModCaucho.ungetc, charsLeft]
  exact hback ▸ h.left

theorem bufRead_onward (is : Rstream) : Onward none is (bufRead is).1 (bufRead is).2 := by
  unfold bufRead
  cases hfile : is.file with
  | nil => exact ⟨Nat.le_refl _, Nat.le_refl _⟩
  | cons ch file => exact ⟨by simp [charsLeft, hfile, Nat.add_comm], Nat.le_refl _⟩

/-- A character that is read was in the file. -/
theorem bufRead_some_left {ch : Char} {is is' : Rstream} (h : bufRead is = (some ch, is')) :
    is.file.length = 1 + is'.file.length := by
  unfold bufRead at h
  cases hfile : is.file with
  | nil =>
      rw [hfile] at h
      cases h
  | cons ch' file =>
      rw [hfile] at h
      cases h
      simp [Nat.add_comm]

theorem bufAppend_file (is : Rstream) (ch : Char) : (bufAppend fresh is ch).file = is.file := by
  unfold bufAppend
  split <;> rfl

theorem bufAppend_capacity (is : Rstream) (ch : Char) :
    is.capacity ≤ (bufAppend fresh is ch).capacity := by
  unfold bufAppend
  split
  · simp only
    omega
  · exact Nat.le_refl _

/-! ## The loops over characters -/

section

variable {p : Char → Bool} {f : Rstream → Char → Rstream}

theorem forWhile_onward (hf : ∀ is ch, (f is ch).file = is.file)
    (hroom : ∀ is ch, is.capacity ≤ (f is ch).capacity) (fuel : ℕ) (ch : Option Char)
    (is : Rstream) :
    Onward ch is (forWhile p f fuel ch is).1 (forWhile p f fuel ch is).2 := by
  induction fuel generalizing ch is with
  | zero => cases ch <;> exact ⟨Nat.le_refl _, Nat.le_refl _⟩
  | succ fuel ih =>
      cases ch with
      | none => exact ⟨Nat.le_refl _, Nat.le_refl _⟩
      | some ch =>
          have hread := bufRead_onward (f is ch)
          rcases hnext : bufRead (f is ch) with ⟨ch₁, is₁⟩
          rw [hnext] at hread
          rw [forWhile, hnext]
          split
          · have hone : Onward (some ch) is none (f is ch) := by
              refine ⟨?_, hroom is ch⟩
              simp [charsLeft, hf]
            exact (hone.trans hread).trans (ih ch₁ is₁)
          · exact ⟨Nat.le_refl _, Nat.le_refl _⟩

/-- A loop ends at the end of the file or by its own test, not by its bound. -/
theorem forWhile_exits (hf : ∀ is ch, (f is ch).file = is.file) {fuel : ℕ} {ch : Option Char}
    {is : Rstream} (hfuel : charsLeft ch is ≤ fuel) :
    ∀ ch' ∈ (forWhile p f fuel ch is).1, p ch' = false := by
  induction fuel generalizing ch is with
  | zero =>
      cases ch with
      | none => simp [forWhile]
      | some ch => simp [charsLeft] at hfuel
  | succ fuel ih =>
      cases ch with
      | none => simp [forWhile]
      | some ch =>
          have hread := (bufRead_onward (f is ch)).left
          rcases hnext : bufRead (f is ch) with ⟨ch₁, is₁⟩
          rw [hnext] at hread
          rw [forWhile, hnext]
          split
          · refine ih (Nat.le_trans hread ?_)
            simpa [charsLeft, hf, Nat.add_comm] using hfuel
          · next hp =>
              intro ch' hch'
              rw [← Option.some_inj.mp hch']
              exact Bool.not_eq_true _ ▸ hp

end

theorem skipSpace_onward (ch : Option Char) (is : Rstream) :
    Onward ch is (skipSpace ch is).1 (skipSpace ch is).2 :=
  forWhile_onward (fun _ _ => rfl) (fun _ _ => Nat.le_refl _) _ _ _

theorem skipSpace_exits (ch : Option Char) (is : Rstream) :
    ∀ ch' ∈ (skipSpace ch is).1, isSpace ch' = false :=
  forWhile_exits (fun _ _ => rfl) (charsLeft_le ch is)

theorem readToken_onward (p : Char → Bool) (ch : Option Char) (is : Rstream) :
    Onward ch is (readToken fresh p ch is).1 (readToken fresh p ch is).2 := by
  have htoken := @forWhile_onward p _ (@bufAppend_file fresh) bufAppend_capacity
    (is.file.length + 1) ch { is with buf := [] }
  exact ⟨htoken.left, htoken.room⟩

theorem readToken_exits (p : Char → Bool) (ch : Option Char) (is : Rstream) :
    ∀ ch' ∈ (readToken fresh p ch is).1, p ch' = false :=
  forWhile_exits bufAppend_file (charsLeft_le ch _)

/-! ## Tags -/

/-- What `parse_attribute` leaves, which is less when it is to be called again. -/
theorem scanAttribute_onward {ch : Option Char} {is is' : Rstream} {attr : Option Attr}
    {stop : AttrEnd} (h : scanAttribute fresh path ch is = (attr, stop, is')) :
    Onward ch is none is' ∧
      ∀ ch', stop = .more ch' → charsLeft (some ch') is' < charsLeft ch is := by
  unfold scanAttribute at h
  have h₁ := skipSpace_onward ch is
  rcases hread₁ : skipSpace ch is with ⟨ch₁, is₁⟩
  rw [hread₁] at h h₁
  have h₂ := h₁.trans (@readToken_onward fresh
    (fun ch => !isSpace ch && ch != '=' && ch != '/' && ch != '>') ch₁ is₁)
  rcases hread₂ : readToken fresh
    (fun ch => !isSpace ch && ch != '=' && ch != '/' && ch != '>') ch₁ is₁ with ⟨ch₂, is₂⟩
  simp only [hread₂] at h h₂
  split at h
  · cases h
    exact ⟨h₂.ungetc, fun _ hstop => nomatch hstop⟩
  have h₃ := h₂.trans (skipSpace_onward ch₂ is₂)
  rcases hread₃ : skipSpace ch₂ is₂ with ⟨ch₃, is₃⟩
  simp only [hread₃] at h h₃
  split at h
  · cases h
    exact ⟨h₃.ungetc, fun _ hstop => nomatch hstop⟩
  next hequals =>
  -- only a value behind a `=` makes the loop go on
  rw [not_not.mp hequals] at h₃
  have hless : charsLeft none is₃ < charsLeft ch is :=
    Nat.lt_of_lt_of_le (by simp [charsLeft]) h₃.left
  have h₅ := (bufRead_onward is₃).trans (skipSpace_onward (bufRead is₃).1 (bufRead is₃).2)
  rcases hread₄ : bufRead is₃ with ⟨ch₄, is₄⟩
  rw [hread₄] at h₅
  rcases hread₅ : skipSpace ch₄ is₄ with ⟨ch₅, is₅⟩
  simp only [hread₄, hread₅] at h h₅
  split at h
  · cases h
    exact ⟨(h₃.drop.trans h₅).drop, fun _ hstop => nomatch hstop⟩
  split at h
  · next hquote =>
      have hheld : charsLeft ch₅ is₅ = 1 + charsLeft none is₅ := by
        rcases hquote with rfl | rfl <;> simp [charsLeft]
      have h₇ := (bufRead_onward is₅).trans
        (@readToken_onward fresh (fun ch => some ch != ch₅) (bufRead is₅).1 (bufRead is₅).2)
      rcases hread₆ : bufRead is₅ with ⟨ch₆, is₆⟩
      rw [hread₆] at h₇
      rcases hread₇ : readToken fresh (fun ch => some ch != ch₅) ch₆ is₆ with ⟨ch₇, is₇⟩
      simp only [hread₆, hread₇] at h h₇
      split at h
      · cases h
        exact ⟨((h₃.drop.trans h₅.drop).trans h₇).drop, fun _ hstop => nomatch hstop⟩
      · cases h
        refine ⟨((h₃.drop.trans h₅.drop).trans h₇).drop, fun ch' _ => ?_⟩
        have hfive := h₅.left
        have hend := h₇.drop.left
        have hblank : charsLeft (some ch') is' = 1 + charsLeft none is' := by simp [charsLeft]
        omega
  · have h₆ := h₅.trans
      (@readToken_onward fresh (fun ch => !isSpace ch && ch != '/' && ch != '>') ch₅ is₅)
    rcases hread₆ : readToken fresh (fun ch => !isSpace ch && ch != '/' && ch != '>') ch₅ is₅
      with ⟨ch₆, is₆⟩
    simp only [hread₆] at h h₆
    cases h
    refine ⟨(h₃.drop.trans h₆).drop, fun ch' hstop => ?_⟩
    cases ch₆ with
    | none => cases hstop
    | some ch₆ =>
        cases hstop
        exact Nat.lt_of_le_of_lt h₆.left hless

theorem scanAttributes_onward (fuel : ℕ) (ch : Option Char) (is : Rstream) :
    Onward ch is none (scanAttributes fresh path fuel ch is).2.2 := by
  induction fuel generalizing ch is with
  | zero => exact ⟨by simp [scanAttributes, charsLeft], Nat.le_refl _⟩
  | succ fuel ih =>
      rcases hattr : scanAttribute fresh path ch is with ⟨attr, stop, is'⟩
      obtain ⟨hone, hmore⟩ := scanAttribute_onward hattr
      rw [scanAttributes, hattr]
      cases stop with
      | more ch' =>
          have hheld : Onward ch is (some ch') is' := ⟨Nat.le_of_lt (hmore ch' rfl), hone.room⟩
          exact hheld.trans (ih (some ch') is')
      | done => exact hone
      | fail error => exact hone

/-- The bound on the attributes of a tag is not what ends them. -/
theorem scanAttributes_bound {fuel : ℕ} {ch : Option Char} {is : Rstream}
    (hpos : 0 < fuel) (hfuel : charsLeft ch is ≤ fuel) :
    scanAttributes fresh path (fuel + 1) ch is = scanAttributes fresh path fuel ch is := by
  induction fuel generalizing ch is with
  | zero => exact absurd hpos (Nat.not_lt_zero _)
  | succ fuel ih =>
      rcases hattr : scanAttribute fresh path ch is with ⟨attr, stop, is'⟩
      obtain ⟨-, hmore⟩ := scanAttribute_onward hattr
      rw [scanAttributes, hattr, scanAttributes, hattr]
      cases stop with
      | more ch' =>
          have hless := hmore ch' rfl
          have hheld : charsLeft (some ch') is' = 1 + is'.file.length := rfl
          have hrest : scanAttributes fresh path (fuel + 1) (some ch') is' =
              scanAttributes fresh path fuel (some ch') is' := ih (by omega) (by omega)
          simp only [hrest]
      | done => rfl
      | fail error => rfl

theorem scanTag_onward (ch : Option Char) (is : Rstream) :
    Onward ch is none (scanTag fresh path ch is).2 := by
  unfold scanTag
  have h₁ := @readToken_onward fresh isTagChar ch is
  rcases hread₁ : readToken fresh isTagChar ch is with ⟨ch₁, is₁⟩
  simp only [hread₁] at h₁ ⊢
  split
  · exact h₁.drop
  have h₂ := h₁.trans (@scanAttributes_onward fresh path (is₁.file.length + 1) ch₁ is₁)
  rcases hread₂ : scanAttributes fresh path (is₁.file.length + 1) ch₁ is₁ with ⟨attrs, failed, is₂⟩
  simp only [hread₂] at h₂ ⊢
  split
  · exact h₂
  have h₄ := h₂.trans ((bufRead_onward is₂).trans
    (skipSpace_onward (bufRead is₂).1 (bufRead is₂).2))
  rcases hread₃ : bufRead is₂ with ⟨ch₃, is₃⟩
  rw [hread₃] at h₄
  rcases hread₄ : skipSpace ch₃ is₃ with ⟨ch₄, is₄⟩
  simp only [hread₄] at h₄ ⊢
  have h₅ := h₄.drop.trans (bufRead_onward is₄)
  rcases hread₅ : bufRead is₄ with ⟨ch₅, is₅⟩
  simp only [hread₅] at h₅ ⊢
  split
  · exact h₄.drop
  split
  · exact h₄.drop
  split <;> exact h₅.drop

theorem scanEndTag_onward (is : Rstream) :
    Onward none is none (scanEndTag fresh path is).2 := by
  unfold scanEndTag
  have h₂ := (bufRead_onward is).trans
    (@readToken_onward fresh isTagChar (bufRead is).1 (bufRead is).2)
  rcases hread₁ : bufRead is with ⟨ch₁, is₁⟩
  rw [hread₁] at h₂
  rcases hread₂ : readToken fresh isTagChar ch₁ is₁ with ⟨ch₂, is₂⟩
  simp only [hread₂] at h₂ ⊢
  have h₃ := h₂.trans (skipSpace_onward ch₂ is₂)
  rcases hread₃ : skipSpace ch₂ is₂ with ⟨ch₃, is₃⟩
  simp only [hread₃] at h₃ ⊢
  split
  · exact h₂.drop
  · split <;> exact h₃.drop

/-! ## What is skipped -/

theorem skipUntil_onward {σ : Type} (step : σ → Char → Option σ) (file : Text) (s : σ)
    (is : Rstream) : Onward none is none (skipUntil step file s is).2 := by
  induction file generalizing s is with
  | nil => exact ⟨Nat.le_refl _, Nat.le_refl _⟩
  | cons ch file ih =>
      rw [skipUntil]
      split
      · exact (bufRead_onward is).drop
      · next s' _ => exact (bufRead_onward is).drop.trans (ih s' _)

theorem skip_onward {σ : Type} (step : σ → Char → Option σ) (s : σ) (what : String)
    (is : Rstream) : Onward none is none (skip step s what path is).2 :=
  skipUntil_onward step is.file s is

/-- What `cse_parse` reads behind a `<`. -/
theorem scanMarkup_onward (is : Rstream) :
    Onward none is none (scanMarkup fresh path is).2.2 := by
  have hread := bufRead_onward is
  unfold scanMarkup
  split
  · next is₁ hread₁ =>
      have h₁ : Onward none is none is₁ := (hread₁ ▸ hread).drop
      have hread' := bufRead_onward is₁
      split
      · next is₂ hread₂ =>
          have h₂ : Onward none is₁ none is₂ := (hread₂ ▸ hread').drop
          exact (h₁.trans h₂).trans (skip_onward doctypeStep none "doctype" is₂)
      · next ch₂ is₂ _ hread₂ =>
          have h₂ : Onward none is₁ none is₂ := (hread₂ ▸ hread').drop
          exact ((h₁.trans h₂).trans (bufRead_onward is₂).drop).trans
            (@skip_onward path _ commentStep 0 "comment" (bufRead is₂).2)
  · next is₁ hread₁ =>
      have h₁ : Onward none is none is₁ := (hread₁ ▸ hread).drop
      exact h₁.trans (skip_onward piStep false "pi" is₁)
  · next is₁ hread₁ =>
      have h₁ : Onward none is none is₁ := (hread₁ ▸ hread).drop
      have hend := h₁.trans (@scanEndTag_onward fresh path is₁)
      split
      · next hscan =>
          rw [hscan] at hend
          exact hend
      · next hscan =>
          rw [hscan] at hend
          exact hend
  · next ch is₁ _ _ _ hread₁ =>
      rw [hread₁] at hread
      have htag := hread.trans (@scanTag_onward fresh path ch is₁)
      split
      · next hscan =>
          rw [hscan] at htag
          exact htag
      · next hscan =>
          rw [hscan] at htag
          exact htag

/-! ## The rounds of the loop -/

namespace Parser

section

variable (fresh : Fresh) (files : Files)
  (parse : Text → Text → Nodes → Option Text → Except Stop Parsed) (path : Text)

/-- The rounds of the loop, each with the state that it begins in and the character. -/
def rounds : ℕ → Parser → List (Parser × Char)
  | 0, _ => []
  | fuel + 1, s =>
      match bufRead s.is with
      | (none, _) => []
      | (some ch, is) =>
          ({ s with is := is }, ch) ::
            match step fresh files parse path { s with is := is } ch with
            | .ok s => rounds fuel s
            | .error _ => []

/-- A round up to the test behind a tag, and whether the test is made. -/
def turn (s : Parser) (ch : Char) : Except Stop (Bool × Parser) :=
  if ch = ' ' ∨ ch = '\t' ∨ ch = '\n' ∨ ch = '\x0c' then
    .ok (false, { s with is := bufAppend fresh s.is ch })
  else if ch ≠ '<' then
    .ok (false, { s with is := bufAppend fresh s.is ch, spaceOnly := false })
  else
    let s := s.setText
    let (markup, error, is) := scanMarkup fresh path s.is
    let s := { s with is := is, error := error.or s.error }
    match markup with
    | .skipped => .ok (false, s)
    | .tag tag =>
        let (nodes, node) := addTag s.nodes s.node tag
        .ok (true, { s with nodes := nodes, node := node })
    | .endTag =>
        match (s.nodes.cell s.node).parent with
        | none => .error .crash
        | some parent => .ok (true, { s with node := parent })
    | .fail => .error (.null s.error)

end

variable {files : Files} {parse : Text → Text → Nodes → Option Text → Except Stop Parsed}
  {s s₁ : Parser} {ch : Char} {is : Rstream}

/-- The first round, and the rest of the loop. -/
theorem rounds_cons (hread : bufRead s.is = (some ch, is))
    (hstep : step fresh files parse path { s with is := is } ch = .ok s₁) (fuel : ℕ) :
    s.rounds fresh files parse path (fuel + 1) =
        ({ s with is := is }, ch) :: s₁.rounds fresh files parse path fuel ∧
      s.loop fresh files parse path (fuel + 1) = s₁.loop fresh files parse path fuel := by
  rw [rounds, loop, hread]
  simp only [hstep, and_self]

/-- A round is its turn and the test behind it. -/
theorem step_eq_turn (s : Parser) (ch : Char) :
    s.step fresh files parse path ch =
      match s.turn fresh path ch with
      | .ok (true, s') => s'.includeLast files parse path
      | .ok (false, s') => .ok s'
      | .error stop => .error stop := by
  unfold step turn
  split
  · rfl
  · split
    · rfl
    · rcases hscan : scanMarkup fresh path s.setText.is with ⟨markup, error, is⟩
      simp only [hscan]
      cases markup with
      | skipped => rfl
      | tag tag => rfl
      | endTag =>
          simp only
          cases (s.setText.nodes.cell s.setText.node).parent <;> rfl
      | fail => rfl

theorem setText_onward (s : Parser) : Onward none s.is none s.setText.is := by
  unfold setText
  split
  · exact ⟨Nat.le_refl _, Nat.le_refl _⟩
  · split <;> exact ⟨Nat.le_refl _, Nat.le_refl _⟩

/-- What a turn can do. -/
theorem turn_cases {tagged : Bool} {s' : Parser} (h : s.turn fresh path ch = .ok (tagged, s')) :
    ∃ is, Onward none s.is none is ∧
      ((tagged = false ∧ ∃ spaceOnly, s' = { s with is := is, spaceOnly := spaceOnly }) ∨
        ∃ error, tagged = false ∧ s' = { s.setText with is := is, error := error } ∨
          tagged = true ∧
            ((∃ tag, s' = { s.setText with
                is := is
                error := error
                nodes := (addTag s.setText.nodes s.setText.node tag).1
                node := (addTag s.setText.nodes s.setText.node tag).2 }) ∨
              ∃ parent, (s.setText.nodes.cell s.setText.node).parent = some parent ∧
                s' = { s.setText with is := is, error := error, node := parent })) := by
  have happend : Onward none s.is none (bufAppend fresh s.is ch) :=
    ⟨by simp [charsLeft, bufAppend_file], bufAppend_capacity _ _⟩
  unfold turn at h
  split at h
  · cases h
    exact ⟨_, happend, Or.inl ⟨rfl, _, rfl⟩⟩
  · split at h
    · cases h
      exact ⟨_, happend, Or.inl ⟨rfl, _, rfl⟩⟩
    · have hscanned := s.setText_onward.trans (@scanMarkup_onward fresh path s.setText.is)
      rcases hscan : scanMarkup fresh path s.setText.is with ⟨markup, error, is⟩
      simp only [hscan] at h hscanned
      refine ⟨is, hscanned, Or.inr ⟨error.or s.setText.error, ?_⟩⟩
      cases markup with
      | skipped =>
          cases h
          exact Or.inl ⟨rfl, rfl⟩
      | tag tag =>
          cases h
          exact Or.inr ⟨rfl, Or.inl ⟨tag, rfl⟩⟩
      | endTag =>
          simp only at h
          split at h
          · cases h
          · next parent hparent =>
              cases h
              exact Or.inr ⟨rfl, Or.inr ⟨parent, hparent, rfl⟩⟩
      | fail => cases h

theorem turn_onward {tagged : Bool} {s' : Parser} (h : s.turn fresh path ch = .ok (tagged, s')) :
    Onward none s.is none s'.is := by
  obtain ⟨is, hon, ⟨-, _, rfl⟩ | ⟨_, ⟨-, rfl⟩ | ⟨-, ⟨_, rfl⟩ | ⟨_, -, rfl⟩⟩⟩⟩ := turn_cases h
  · exact hon
  · exact hon
  · exact hon
  · exact hon

/-- A turn ends by itself. -/
theorem turn_ne_endless (s : Parser) (ch : Char) : s.turn fresh path ch ≠ .error .endless := by
  unfold turn
  split
  · simp
  · split
    · simp
    · rcases hscan : scanMarkup fresh path s.setText.is with ⟨markup, error, is⟩
      simp only [hscan]
      cases markup with
      | skipped => simp
      | tag tag => simp
      | endTag =>
          cases (s.setText.nodes.cell s.setText.node).parent <;> simp
      | fail => simp

end Parser

end ModCaucho
