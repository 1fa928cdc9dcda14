import ModCaucho.Registry.Lex
import ModCaucho.Registry.Refine

/-!
# Round trip of a configuration

A tree of elements is written with any layout between its tags and parsed again. The
parser notes once and for all that it has seen text, and from then on an element whose
first child is still to come gets the white space in front of it as a value. So the
tree comes back exactly if each element with children lies above the first leaf.
-/

namespace ModCaucho

open LinkedForest

/-! ## Written elements -/

/-- Leaves with a value and inner nodes with at least one child. -/
def Elements : Registry → Prop
  | .nil => True
  | .node entry first next =>
      IsKey entry.key ∧
        (match first with
          | .nil => ∃ value, entry.value = some value ∧ IsToken value
          | .node .. => entry.value = none) ∧
        Elements first ∧ Elements next

/-- What may stand between two tags: spaces, tabs, newlines and comments. -/
inductive Gap : Text → Prop
  | nil : Gap []
  | space {ch : Char} {gap : Text} (hch : ch = ' ' ∨ ch = '\t' ∨ ch = '\n') (hgap : Gap gap) :
      Gap (ch :: gap)
  | comment {body gap : Text} (hbody : ¬ "-->".toList <:+: body) (hgap : Gap gap) :
      Gap ('<' :: '!' :: '-' :: '-' :: body ++ '-' :: '-' :: '>' :: gap)

/-- The siblings are written in the canonical element form, with any layout. -/
inductive Written : Registry → Text → Prop
  | nil {gap : Text} (hgap : Gap gap) : Written .nil gap
  | leaf {gap key value text : Text} {next : Registry} (hgap : Gap gap)
      (hnext : Written next text) :
      Written (.node ⟨key, some value⟩ .nil next)
        (gap ++ '<' :: key ++ '>' :: value ++ '<' :: '/' :: key ++ '>' :: text)
  | inner {gap key inside text : Text} {first next : Registry} (hgap : Gap gap)
      (hne : first ≠ .nil) (hfirst : Written first inside) (hnext : Written next text) :
      Written (.node ⟨key, none⟩ first next)
        (gap ++ '<' :: key ++ '>' :: inside ++ '<' :: '/' :: key ++ '>' :: text)

/-! ## What is read -/

/-- The siblings have no children. -/
def Flat : Registry → Prop
  | .nil => True
  | .node _ first next => first = .nil ∧ Flat next

/-- Every node with children is an ancestor of the first leaf. -/
def Spine : Registry → Prop
  | .nil => True
  | .node _ first next => Spine first ∧ Flat next

/-- The siblings as they are read, `seen` being whether there was text before them. -/
def ReadAs : Bool → Registry → Registry → Prop
  | _, .nil, t => t = .nil
  | seen, .node entry first next, t =>
      ∃ value first' next', t = .node ⟨entry.key, value⟩ first' next' ∧
        (first = .nil → value = entry.value) ∧
        (first ≠ .nil → (value = none ↔ seen = false)) ∧
        ReadAs seen first first' ∧ ReadAs true next next'

theorem ReadAs.ne_nil {seen : Bool} {s t : Registry} (h : ReadAs seen s t) (hs : s ≠ .nil) :
    t ≠ .nil := by
  cases s with
  | nil => exact absurd rfl hs
  | node entry first next =>
      obtain ⟨value, first', next', rfl, -⟩ := h
      exact fun hnil => nomatch hnil

/-- What is read is what was written only along the spine of the first leaf. -/
theorem ReadAs.eq_iff {seen : Bool} {s t : Registry} (h : ReadAs seen s t) (hs : Elements s) :
    t = s ↔ if seen then Flat s else Spine s := by
  induction s generalizing seen t with
  | nil =>
      rw [ReadAs] at h
      cases seen <;> simp [h, Flat, Spine]
  | node entry first next ihf ihn =>
      obtain ⟨value, first', next', rfl, hleaf, hinner, hfirst, hnext⟩ := h
      obtain ⟨-, hentry, hf, hn⟩ := hs
      have hnext' := ihn hnext hn
      have hfirst' := ihf hfirst hf
      have hentry' (hvalue : value = entry.value) : (⟨entry.key, value⟩ : Entry) = entry := by
        rw [hvalue]
      cases first with
      | nil =>
          have hvalue := hleaf rfl
          have hnil : first' = .nil := hfirst
          subst hvalue hnil
          simp only [if_true] at hnext'
          simp only [Flat, Spine, true_and, Forest.node.injEq, ite_self, hnext']
      | node entry' first₁ next₁ =>
          have hvalue := hinner (by simp)
          simp only at hentry
          simp only [if_true] at hnext'
          cases seen with
          | true =>
              simp only [if_true, Flat, reduceCtorEq, false_and, iff_false]
              intro heq
              have hv : value = entry.value := congrArg Entry.value (Forest.node.inj heq).1
              rw [hentry] at hv
              exact absurd (hvalue.mp hv) (by decide)
          | false =>
              have hv : value = none := hvalue.mpr rfl
              simp only [Bool.false_eq_true, if_false] at hfirst' ⊢
              have he : (⟨entry.key, value⟩ : Entry) = entry := hentry' (hv.trans hentry.symm)
              have hspine : Spine (.node entry (.node entry' first₁ next₁) next) ↔
                  Spine (.node entry' first₁ next₁) ∧ Flat next := Iff.rfl
              rw [Forest.node.injEq, hfirst', hnext', hspine]
              simp [he]

/-! ## Runs of the builder -/

/-- The builder takes this many rounds from the one state to the other. -/
inductive Runs (fresh : Fresh) (path : Text) : ℕ → Builder → Builder → Prop
  | refl (b : Builder) : Runs fresh path 0 b b
  | step {n : ℕ} {b b₁ b' : Builder} {ch : Char} {is : Rstream}
      (hread : bufRead b.is = (some ch, is))
      (hstep : Builder.step fresh path { b with is := is } ch = some b₁)
      (hrest : Runs fresh path n b₁ b') : Runs fresh path (n + 1) b b'

section

variable {fresh : Fresh} {path : Text} {b b' b'' : Builder} {m n : ℕ}

theorem Runs.trans (h : Runs fresh path m b b') (h' : Runs fresh path n b' b'') :
    Runs fresh path (m + n) b b'' := by
  induction h with
  | refl b => rwa [Nat.zero_add]
  | step hread hstep _ ih =>
      rw [Nat.add_right_comm]
      exact .step hread hstep (ih h')

/-- The loop goes the way of a run. -/
theorem Runs.loop_eq (h : Runs fresh path n b b') (fuel : ℕ) :
    b.loop fresh path (n + fuel) = b'.loop fresh path fuel := by
  induction h with
  | refl b => rw [Nat.zero_add]
  | step hread hstep _ ih =>
      rw [Nat.add_right_comm, Builder.loop, hread]
      simp only [hstep, Option.bind_some]
      exact ih

theorem runs_one {ch : Char} {is : Rstream} (hread : bufRead b.is = (some ch, is))
    (hstep : Builder.step fresh path { b with is := is } ch = some b') :
    Runs fresh path 1 b b' :=
  .step hread hstep (.refl b')

/-- An open node after more of what stands in front of its first child was read. -/
structure Settled (space : Bool) (fr fr' : Frame Entry) : Prop where
  kids : fr'.kids = fr.kids
  behind : fr'.behind = fr.behind
  key : fr'.data.key = fr.data.key
  data (h : space = true ∨ fr.data.value ≠ none ∨ fr.kids ≠ .nil) : fr'.data = fr.data

theorem Settled.refl (space : Bool) (fr : Frame Entry) : Settled space fr fr :=
  ⟨rfl, rfl, rfl, fun _ => rfl⟩

theorem Settled.trans {space : Bool} {fr fr' fr'' : Frame Entry} (h : Settled space fr fr')
    (h' : Settled space fr' fr'') : Settled space fr fr'' := by
  refine ⟨h'.kids.trans h.kids, h'.behind.trans h.behind, h'.key.trans h.key, fun hc => ?_⟩
  have hdata := h.data hc
  refine (h'.data ?_).trans hdata
  rw [hdata, h.kids]
  exact hc

/-- At a `<` the node gets the text before its first child, once there was any text. -/
theorem setText_settled (b : Builder) :
    Settled b.spaceOnly b.cur b.setText.cur ∧
      (b.spaceOnly = false → b.cur.kids = .nil → b.setText.cur.data.value ≠ none) := by
  unfold Builder.setText
  by_cases hspace : b.spaceOnly
  · rw [if_pos hspace]
    exact ⟨.refl _ _, fun h => absurd hspace (by simp [h])⟩
  rw [if_neg hspace]
  by_cases hempty : b.cur.data.value = none ∧ b.cur.kids = .nil
  · rw [if_pos hempty]
    refine ⟨⟨rfl, rfl, rfl, fun h => ?_⟩, fun _ _ => by simp [Entry.setValue]⟩
    rcases h with h | h | h
    · exact absurd h hspace
    · exact absurd hempty.1 h
    · exact absurd hempty.2 h
  · rw [if_neg hempty]
    exact ⟨.refl _ _, fun _ hkids hvalue => hempty ⟨hvalue, hkids⟩⟩

/-- A state before this rest of the file, with the room that the buffer began with. -/
structure Before (b : Builder) (rest : Text) : Prop where
  file : b.is.file = rest
  room : 1024 ≤ b.is.capacity

/-- Moving on in the file does not change what a `<` does to the open node. -/
theorem setText_move (b : Builder) (file : Text) (line : ℕ) :
    Builder.setText { b with is := { b.is with file := file, line := line } } =
      { b.setText with is := { b.setText.is with file := file, line := line } } := by
  unfold Builder.setText
  simp only
  split
  · rfl
  · split <;> rfl

theorem setText_is (b : Builder) :
    b.setText.is.capacity = b.is.capacity ∧ b.setText.is.file = b.is.file ∧
      b.setText.spaceOnly = b.spaceOnly ∧ b.setText.outer = b.outer := by
  unfold Builder.setText
  split
  · exact ⟨rfl, rfl, rfl, rfl⟩
  · split <;> exact ⟨rfl, rfl, rfl, rfl⟩

theorem bufRead_cons {is : Rstream} {ch : Char} {rest : Text} (h : is.file = ch :: rest) :
    bufRead is = (some ch, { is with
      file := rest
      line := if ch = '\n' then is.line + 1 else is.line }) := by
  rw [bufRead, h]

variable (fresh path) in
/-- A start tag opens a node. -/
theorem runs_open {key rest : Text} (hk : IsKey key)
    (hb : Before b ('<' :: key ++ '>' :: rest)) :
    ∃ b' up, Runs fresh path 1 b b' ∧ Before b' rest ∧ b'.is.buf = [] ∧
      b'.spaceOnly = b.spaceOnly ∧ b'.cur = .fresh ⟨key, none⟩ ∧ b'.outer = up :: b.outer ∧
      Settled b.spaceOnly b.cur up ∧
      (b.spaceOnly = false → b.cur.kids = .nil → up.data.value ≠ none) := by
  obtain ⟨hfile, hroom⟩ := hb
  rw [List.cons_append] at hfile
  obtain ⟨hcapacity, -, hspace, houter⟩ := setText_is b
  obtain ⟨hsettled, hvalue⟩ := setText_settled b
  obtain ⟨line, hscan⟩ := @scanMarkup_tag fresh path
    { b.setText.is with file := key ++ '>' :: rest, line := b.is.line } rest key hk
    (by simp only; omega) rfl
  refine ⟨{ b.setText with
      is := { b.setText.is with file := rest, line := line, buf := [] }
      cur := .fresh ⟨key, none⟩
      outer := b.setText.cur :: b.setText.outer }, b.setText.cur,
    runs_one (bufRead_cons hfile) ?_, ⟨rfl, ?_⟩, rfl, hspace, rfl, ?_, hsettled, hvalue⟩
  · rw [Builder.step, if_neg (by decide), if_neg (by decide)]
    simp only [setText_move, if_neg (by decide : ¬ '<' = '\n'), hscan]
    rfl
  · simp only
    omega
  · rw [← houter]

variable (fresh path) in
/-- An end tag closes the node. -/
theorem runs_close {key rest : Text} {up : Frame Entry} {ups : List (Frame Entry)}
    (hk : IsToken key) (hb : Before b ('<' :: '/' :: key ++ '>' :: rest))
    (houter : b.outer = up :: ups) :
    ∃ b', Runs fresh path 1 b b' ∧ Before b' rest ∧ b'.spaceOnly = b.spaceOnly ∧
      b'.cur = up.add b.setText.cur.tree ∧ b'.outer = ups := by
  obtain ⟨hfile, hroom⟩ := hb
  rw [List.cons_append, List.cons_append] at hfile
  obtain ⟨hcapacity, -, hspace, houter'⟩ := setText_is b
  obtain ⟨line, hscan⟩ := @scanMarkup_endTag fresh path
    { b.setText.is with file := '/' :: key ++ '>' :: rest, line := b.is.line } rest key hk.name
    (by simp only; omega) rfl
  refine ⟨{ b.setText with
      is := { b.setText.is with file := rest, line := line, buf := key }
      cur := up.add b.setText.cur.tree
      outer := ups }, runs_one (bufRead_cons hfile) ?_, ⟨rfl, ?_⟩, hspace, rfl, rfl⟩
  · rw [Builder.step, if_neg (by decide), if_neg (by decide)]
    simp only [setText_move, if_neg (by decide : ¬ '<' = '\n')]
    rw [List.cons_append] at hscan
    simp only [hscan, Builder.close, houter', houter]
  · simp only
    omega

variable (fresh path) in
/-- What stands between two tags at most gives the open node its text. -/
theorem runs_gap {gap : Text} (hgap : Gap gap) {rest : Text} (hb : Before b (gap ++ rest)) :
    ∃ n b', n ≤ gap.length ∧ Runs fresh path n b b' ∧ Before b' rest ∧
      b'.spaceOnly = b.spaceOnly ∧ b'.outer = b.outer ∧ Settled b.spaceOnly b.cur b'.cur := by
  induction hgap generalizing b with
  | nil => exact ⟨0, b, Nat.le_refl _, .refl b, hb, rfl, rfl, .refl _ _⟩
  | @space ch gap hch hgap ih =>
      obtain ⟨hfile, hroom⟩ := hb
      rw [List.cons_append] at hfile
      have hspace : ch = ' ' ∨ ch = '\t' ∨ ch = '\n' ∨ ch = '\x0c' := by tauto
      have hread := bufRead_cons hfile
      generalize his : ({ b.is with
        file := gap ++ rest
        line := if ch = '\n' then b.is.line + 1 else b.is.line } : Rstream) = is at hread
      have hcap : is.capacity = b.is.capacity := by rw [← his]
      have hbuf := @bufAppend_capacity fresh is ch
      obtain ⟨n, b', hn, hruns, hbefore, hsame, houter, hsettled⟩ :=
        @ih { b with is := bufAppend fresh is ch }
          ⟨by rw [bufAppend_file, ← his], by simp only; omega⟩
      refine ⟨n + 1, b', Nat.succ_le_succ hn, .step hread ?_ hruns, hbefore, hsame, houter,
        hsettled⟩
      rw [Builder.step, if_pos hspace]
  | @comment body gap hbody hgap ih =>
      obtain ⟨hfile, hroom⟩ := hb
      simp only [List.cons_append, List.append_assoc] at hfile
      obtain ⟨hcapacity, -, hspace, houter⟩ := setText_is b
      obtain ⟨line, error, hscan⟩ := @scanMarkup_comment fresh path
        { b.setText.is with
          file := '!' :: '-' :: '-' :: body ++ '-' :: '-' :: '>' :: (gap ++ rest)
          line := b.is.line } (gap ++ rest) body hbody rfl
      obtain ⟨n, b', hn, hruns, hbefore, hsame, houter', hsettled⟩ :=
        @ih { b.setText with is := { b.setText.is with file := gap ++ rest, line := line } }
          ⟨rfl, by simp only; omega⟩
      simp only [hspace] at hsame hsettled
      refine ⟨n + 1, b', ?_, .step (bufRead_cons hfile) ?_ hruns, hbefore, hsame,
        houter'.trans houter, (setText_settled b).1.trans hsettled⟩
      · simp only [List.cons_append, List.length_cons, List.length_append]
        omega
      · rw [Builder.step, if_neg (by decide), if_neg (by decide)]
        simp only [List.cons_append] at hscan
        simp only [setText_move, if_neg (by decide : ¬ '<' = '\n'), hscan]

variable (fresh path) in
/-- The text of a leaf goes to the buffer. -/
theorem runs_text {value rest : Text} (hvalue : ∀ ch ∈ value, isSpace ch = false ∧ ch ≠ '<')
    (hb : Before b (value ++ rest)) (hroom : b.is.buf.length + value.length + 2 < 1024) :
    ∃ line, Runs fresh path value.length b
      { b with
        is := { b.is with file := rest, line := line, buf := b.is.buf ++ value }
        spaceOnly := b.spaceOnly && value.isEmpty } := by
  induction value generalizing b with
  | nil =>
      refine ⟨b.is.line, ?_⟩
      have hfile := hb.file
      rw [List.nil_append] at hfile
      have hsame : ({ b with
          is := { b.is with file := rest, line := b.is.line, buf := b.is.buf ++ [] }
          spaceOnly := b.spaceOnly && List.isEmpty ([] : Text) } : Builder) = b := by
        rw [← hfile]
        simp
      rw [hsame]
      exact .refl b
  | cons ch value ih =>
      obtain ⟨hfile, hcap⟩ := hb
      rw [List.cons_append] at hfile
      obtain ⟨hspace, hopen⟩ := hvalue ch List.mem_cons_self
      have hwhite : ¬ (ch = ' ' ∨ ch = '\t' ∨ ch = '\n' ∨ ch = '\x0c') := by
        rintro (rfl | rfl | rfl | rfl) <;> exact absurd hspace (by decide)
      simp only [List.length_cons] at hroom
      let is : Rstream := { b.is with
        file := value ++ rest
        line := if ch = '\n' then b.is.line + 1 else b.is.line }
      let b₁ : Builder := { b with is := { is with buf := b.is.buf ++ [ch] }, spaceOnly := false }
      have hstep : Builder.step fresh path { b with is := is } ch = some b₁ := by
        rw [Builder.step, if_neg hwhite, if_pos hopen, bufAppend_eq (by simp only [is]; omega)]
      obtain ⟨line, hline⟩ := @ih b₁ (fun x hx => hvalue x (List.mem_cons_of_mem _ hx)) ⟨rfl, hcap⟩
        (by simp only [b₁, List.length_append, List.length_singleton]; omega)
      exact ⟨line, .step (bufRead_cons hfile) hstep (by simpa [b₁, is] using hline)⟩

variable (fresh path) in
/-- A leaf is added to the open node. -/
theorem runs_leaf {key value rest : Text} (hk : IsKey key) (hv : IsToken value)
    (hb : Before b ('<' :: key ++ '>' :: (value ++ ('<' :: '/' :: key ++ '>' :: rest)))) :
    ∃ b' up, Runs fresh path (value.length + 2) b b' ∧ Before b' rest ∧ b'.spaceOnly = false ∧
      b'.cur = up.add (.node ⟨key, some value⟩ .nil .nil) ∧ b'.outer = b.outer ∧
      Settled b.spaceOnly b.cur up ∧
      (b.spaceOnly = false → b.cur.kids = .nil → up.data.value ≠ none) := by
  obtain ⟨b₁, up, hruns₁, hb₁, hbuf₁, hspace₁, hcur₁, houter₁, hsettled, hvalue⟩ :=
    runs_open fresh path hk hb
  have hshort := hv.short
  have hplain (ch : Char) (hch : ch ∈ value) : isSpace ch = false ∧ ch ≠ '<' := by
    refine ⟨(hv.plain ch hch).1, ?_⟩
    rintro rfl
    exact (hv.plain '<' hch).2.1 (by decide)
  obtain ⟨line, hruns₂⟩ := runs_text fresh path hplain hb₁ (by rw [hbuf₁, List.length_nil]; omega)
  have hempty : value.isEmpty = false := by
    cases value with
    | nil => exact absurd rfl hv.ne_nil
    | cons ch value => rfl
  rw [hbuf₁, List.nil_append, hempty, Bool.and_false] at hruns₂
  let b₂ : Builder := { b₁ with
    is := { b₁.is with file := '<' :: '/' :: key ++ '>' :: rest, line := line, buf := value }
    spaceOnly := false }
  have hb₂ : Before b₂ ('<' :: '/' :: key ++ '>' :: rest) := ⟨rfl, hb₁.room⟩
  obtain ⟨b₃, hruns₃, hb₃, hspace₃, hcur₃, houter₃⟩ := runs_close fresh path hk.token hb₂ houter₁
  have htext : b₂.setText.cur.tree = .node ⟨key, some value⟩ .nil .nil := by
    simp [b₂, Builder.setText, hcur₁, Frame.fresh, Frame.tree, Frame.forest, Entry.setValue,
      hv.cString_eq]
  have hruns := hruns₁.trans (@Runs.trans fresh path b₁ b₂ b₃ _ _ hruns₂ hruns₃)
  refine ⟨b₃, up, ?_, hb₃, hspace₃, by rw [hcur₃, htext], houter₃, hsettled, hvalue⟩
  rwa [show value.length + 2 = 1 + (value.length + 1) by omega]

variable (fresh path) in
/-- Written siblings are read below the open node. -/
theorem runs_written {s : Registry} {text : Text} (hw : Written s text) (hs : Elements s)
    {rest : Text} (hb : Before b (text ++ rest)) :
    ∃ n b' s', n ≤ text.length ∧ Runs fresh path n b b' ∧ Before b' rest ∧
      ReadAs (!b.spaceOnly) s s' ∧ b'.cur.kids = b.cur.kids.append s' ∧
      b'.cur.behind = b.cur.behind ∧ b'.cur.data.key = b.cur.data.key ∧ b'.outer = b.outer ∧
      b'.spaceOnly = (b.spaceOnly && decide (s = .nil)) ∧
      (b.spaceOnly = true ∨ b.cur.data.value ≠ none ∨ b.cur.kids ≠ .nil →
        b'.cur.data = b.cur.data) ∧
      (s ≠ .nil → b.spaceOnly = false → b.cur.kids = .nil → b'.cur.data.value ≠ none) := by
  induction hw generalizing b rest with
  | nil hgap =>
      obtain ⟨n, b', hn, hruns, hbefore, hspace, houter, hsettled⟩ := runs_gap fresh path hgap hb
      refine ⟨n, b', .nil, hn, hruns, hbefore, rfl, ?_, hsettled.behind, hsettled.key, houter, ?_,
        hsettled.data, ?_⟩
      · rw [hsettled.kids, Forest.append_nil]
      · simp [hspace]
      · exact fun h => absurd rfl h
  | @leaf gap key value text next hgap hnext ih =>
      obtain ⟨hkey, ⟨value', hvalue', htoken⟩, -, hnext'⟩ := hs
      cases hvalue'
      have hb₀ : Before b (gap ++ ('<' :: key ++ '>' :: (value ++
          ('<' :: '/' :: key ++ '>' :: (text ++ rest))))) :=
        ⟨by rw [hb.file]; simp, hb.room⟩
      obtain ⟨n₁, b₁, hn₁, hruns₁, hb₁, hspace₁, houter₁, hsettled₁⟩ :=
        runs_gap fresh path hgap hb₀
      obtain ⟨b₂, up, hruns₂, hb₂, hspace₂, hcur₂, houter₂, hsettled₂, hvalue₂⟩ :=
        runs_leaf fresh path hkey htoken hb₁
      obtain ⟨n₃, b₃, next', hn₃, hruns₃, hb₃, hread, hkids, hbehind, hkeysame, houter₃, hspace₃,
        hdata, -⟩ := ih hnext' hb₂
      rw [hspace₁] at hsettled₂ hvalue₂
      have hsettled := hsettled₁.trans hsettled₂
      have hup : b₂.cur.kids ≠ .nil := by
        rw [hcur₂, Frame.add, ne_eq, Forest.append_eq_nil_iff]
        intro h
        cases h.2
      have hdata' : b₃.cur.data = up.data :=
        (hdata (Or.inr (Or.inr hup))).trans (by rw [hcur₂]; rfl)
      refine ⟨n₁ + (value.length + 2 + n₃), b₃, .node ⟨key, some value⟩ .nil next', ?_,
        hruns₁.trans (hruns₂.trans hruns₃), hb₃, ?_, ?_, ?_, ?_, ?_, ?_, ?_, ?_⟩
      · simp only [List.length_append, List.length_cons]
        omega
      · rw [hspace₂] at hread
        exact ⟨some value, .nil, next', rfl, fun _ => rfl, fun h => absurd rfl h, rfl, hread⟩
      · rw [hkids, hcur₂, Frame.add, hsettled.kids, Forest.append_assoc]
        rfl
      · rw [hbehind, hcur₂]
        exact hsettled.behind
      · rw [hdata']
        exact hsettled.key
      · rw [houter₃, houter₂, houter₁]
      · simp [hspace₃, hspace₂]
      · intro h
        rw [hdata']
        exact hsettled.data h
      · intro _ hspace hnil
        rw [hdata']
        exact hvalue₂ hspace (hsettled₁.kids.trans hnil)
  | @inner gap key inside text first next hgap hne hfirst hnext ihf ihn =>
      obtain ⟨hkey, -, hf, hn⟩ := hs
      have hb₀ : Before b (gap ++ ('<' :: key ++ '>' :: (inside ++
          ('<' :: '/' :: key ++ '>' :: (text ++ rest))))) :=
        ⟨by rw [hb.file]; simp, hb.room⟩
      obtain ⟨n₁, b₁, hn₁, hruns₁, hb₁, hspace₁, houter₁, hsettled₁⟩ :=
        runs_gap fresh path hgap hb₀
      obtain ⟨b₂, up, hruns₂, hb₂, -, hspace₂, hcur₂, houter₂, hsettled₂, hvalue₂⟩ :=
        runs_open fresh path hkey hb₁
      obtain ⟨n₃, b₃, first', hn₃, hruns₃, hb₃, hread₃, hkids₃, hbehind₃, hkey₃, houter₃, hspace₃,
        hdata₃, hvalue₃⟩ := ihf hf hb₂
      obtain ⟨b₄, hruns₄, hb₄, hspace₄, hcur₄, houter₄⟩ :=
        runs_close fresh path hkey.token hb₃ (houter₃.trans houter₂)
      obtain ⟨n₅, b₅, next', hn₅, hruns₅, hb₅, hread, hkids, hbehind, hkeysame, houter₅, hspace₅,
        hdata, -⟩ := ihn hn hb₄
      rw [hspace₁] at hsettled₂ hvalue₂ hspace₂
      have hsettled := hsettled₁.trans hsettled₂
      have hspace : b₃.spaceOnly = false := by simp [hspace₃, hne]
      have hkids' : b₃.cur.kids = first' := by rw [hkids₃, hcur₂]; rfl
      have hnil : b₃.cur.kids ≠ .nil := hkids' ▸ hread₃.ne_nil hne
      have htree : b₃.setText.cur.tree = .node b₃.cur.data first' .nil := by
        have hclosed := (setText_settled b₃).1
        rw [Frame.tree, Frame.forest, hclosed.behind, hbehind₃, hcur₂, hclosed.kids, hkids',
          hclosed.data (Or.inr (Or.inr hnil))]
        rfl
      have hentry : b₃.cur.data = ⟨key, b₃.cur.data.value⟩ := by
        have hk : b₃.cur.data.key = key := by rw [hkey₃, hcur₂]; rfl
        rw [← hk]
      have hnone : b₃.cur.data.value = none ↔ (!b.spaceOnly) = false := by
        cases hspaceOnly : b.spaceOnly with
        | true =>
            have hsame := hdata₃ (Or.inl (hspace₂.trans hspaceOnly))
            simp [hsame, hcur₂, Frame.fresh]
        | false =>
            have hsome := hvalue₃ hne (hspace₂.trans hspaceOnly) (by rw [hcur₂]; rfl)
            simp [hsome]
      have hup : b₄.cur.kids ≠ .nil := by
        rw [hcur₄, htree, Frame.add, ne_eq, Forest.append_eq_nil_iff]
        intro h
        cases h.2
      have hdata' : b₅.cur.data = up.data :=
        (hdata (Or.inr (Or.inr hup))).trans (by rw [hcur₄]; rfl)
      refine ⟨n₁ + (1 + (n₃ + (1 + n₅))), b₅, .node b₃.cur.data first' next', ?_,
        hruns₁.trans (hruns₂.trans (hruns₃.trans (hruns₄.trans hruns₅))), hb₅, ?_, ?_, ?_, ?_, ?_,
        ?_, ?_, ?_⟩
      · simp only [List.length_append, List.length_cons]
        omega
      · rw [hspace₄, hspace] at hread
        rw [hspace₂] at hread₃
        exact ⟨b₃.cur.data.value, first', next', by rw [← hentry], fun h => absurd h hne,
          fun _ => hnone, hread₃, hread⟩
      · rw [hkids, hcur₄, htree, Frame.add, hsettled.kids, Forest.append_assoc]
        rfl
      · rw [hbehind, hcur₄]
        exact hsettled.behind
      · rw [hdata']
        exact hsettled.key
      · rw [houter₅, houter₄, houter₁]
      · simp [hspace₅, hspace₄, hspace]
      · intro h
        rw [hdata']
        exact hsettled.data h
      · intro _ hspaceOnly hempty
        rw [hdata']
        exact hvalue₂ hspaceOnly (hsettled₁.kids.trans hempty)

end

/-! ## The round trip -/

/-- What is read has the keys that were written, so nothing is included. -/
theorem ReadAs.count_include {seen : Bool} {s t : Registry} (h : ReadAs seen s t)
    (hs : Elements s) (first : Bool) :
    t.count isInclude first = 0 := by
  induction s generalizing seen t first with
  | nil =>
      rw [ReadAs] at h
      rw [h, Forest.count]
  | node entry kids next ihf ihn =>
      obtain ⟨value, kids', next', rfl, -, -, hkids, hnext⟩ := h
      obtain ⟨hkey, -, hf, hn⟩ := hs
      rw [Forest.count, ihf hkids hf, ihn hnext hn]
      simp [isInclude, hkey.ne_include]

/-- What is built from a file of written elements. -/
theorem buildFile_written {fresh : Fresh} {path text : Text} {s : Registry}
    (hw : Written s text) (hs : Elements s) :
    ∃ b s', buildFile fresh path text = some b ∧ ReadAs false s s' ∧ b.frames = [b.cur] ∧
      b.cur.kids = s' ∧ b.registry = .node ⟨[], none⟩ s' .nil := by
  have hbefore : Before (.start text) (text ++ []) := by
    rw [List.append_nil]
    exact ⟨rfl, Nat.le_refl _⟩
  obtain ⟨n, b, s', hn, hruns, hb, hread, hkids, hbehind, -, houter, -, hdata, -⟩ :=
    runs_written fresh path hw hs hbefore
  have hkids' : b.cur.kids = s' := hkids
  have hdata' : b.cur.data = ⟨[], none⟩ := hdata (Or.inl rfl)
  refine ⟨b, s', ?_, hread, by rw [Builder.frames, houter]; rfl, hkids', ?_⟩
  · have hfuel : text.length + 1 = n + (text.length - n + 1) := by omega
    rw [buildFile, hfuel, hruns.loop_eq, Builder.loop, bufRead, hb.file]
  · rw [Builder.registry, houter]
    simp only [Builder.start, Frame.closeAll, Frame.tree, Frame.forest, hbehind, hkids', hdata',
      Frame.fresh]

/-- `cse_parse` gives back this tree. -/
def RoundTrips (fresh : Fresh) (files : Files) (depth : ℕ) (path text : Text) (nodes : Nodes)
    (error : Option Text) (t : Registry) : Prop :=
  ∃ r, cseParse fresh files (depth + 1) path text nodes error = .ok r ∧
    r.nodes.Reads (.node ⟨[], none⟩ t .nil) (some r.root) (some r.root)

/-- What comes back is the tree that `ReadAs` describes. -/
theorem roundTrips_readAs {t : Registry} {text : Text} (hw : Written t text) (ht : Elements t)
    (fresh : Fresh) (files : Files) (depth : ℕ) (path : Text) (nodes : Nodes)
    (error : Option Text) :
    ∃ t', ReadAs false t t' ∧
      (RoundTrips fresh files depth path text nodes error t ↔ t' = t) := by
  obtain ⟨b, t', hbuild, hread, hframes, hkids, hregistry⟩ :=
    @buildFile_written fresh path text t hw ht
  have hstart : Refines True (.start text nodes error) (.start text) :=
    start_refines text nodes error
  have hplain := (Builder.loop_spec (start_plain text) hbuild).1
  have hcount : b.count isInclude = 0 := by
    rw [Builder.count, hframes, Frame.count_cons, hkids, hread.count_include ht true]
    rfl
  obtain ⟨s, hs, hfollows⟩ := @loop_follows True files path (cseParse fresh files depth) fresh _ _ _
    _ hstart (start_plain text) hbuild fun b₁ _ hle => by
      have hsmall := hle isInclude
      rw [Builder.count, Builder.frames, Frame.count_cons] at hsmall
      exact inert_of_count (by omega)
  have hparse : cseParse fresh files (depth + 1) path text nodes error =
      .ok ⟨s.nodes, s.root, s.error⟩ := by
    rw [cseParse, parseFile, hs]
    rfl
  have hseg := hfollows.refines.segment hplain
  rw [hregistry] at hseg
  refine ⟨t', hread, ?_, ?_⟩
  · rintro ⟨r, hr, hreads⟩
    rw [hparse, Except.ok.injEq] at hr
    rw [← hr] at hreads
    exact (Forest.node.inj (hseg.eq_of_reads hreads)).2.1
  · rintro rfl
    exact ⟨_, hparse, hseg.reads⟩

/-- A written tree is read back exactly if every inner node lies above the first leaf. -/
theorem roundTrips_iff {t : Registry} {text : Text} (hw : Written t text) (ht : Elements t)
    (fresh : Fresh) (files : Files) (depth : ℕ) (path : Text) (nodes : Nodes)
    (error : Option Text) :
    RoundTrips fresh files depth path text nodes error t ↔ Spine t := by
  obtain ⟨t', hread, hiff⟩ := roundTrips_readAs hw ht fresh files depth path nodes error
  rw [hiff, hread.eq_iff ht]
  rfl

theorem letter_cases {ch : Char} (h : ch ∈ "abcxy".toList) :
    ch = 'a' ∨ ch = 'b' ∨ ch = 'c' ∨ ch = 'x' ∨ ch = 'y' := by
  simpa using h

theorem isToken_letter {ch : Char} (h : ch ∈ "abcxy".toList) : IsToken [ch] := by
  refine ⟨by simp, by simp, fun x hx => ?_⟩
  rw [List.mem_singleton.mp hx]
  rcases letter_cases h with rfl | rfl | rfl | rfl | rfl <;> decide

theorem isKey_letter {ch : Char} (h : ch ∈ "abcxy".toList) : IsKey [ch] := by
  refine ⟨isToken_letter h, ⟨ch, [], rfl, ?_⟩, ?_, ?_⟩
  · rcases letter_cases h with rfl | rfl | rfl | rfl | rfl <;> decide
  · exact fun heq => absurd (List.cons.inj heq).2 (by decide)
  · exact fun heq => absurd (List.cons.inj heq).2 (by decide)

theorem roundTrips_iff_short :
    RoundTrips (fun _ _ => ' ') (fun _ => none) 0 "resin.conf".toList
      "<a>\n <b>x</b>\n</a>\n".toList
      ⟨fun _ => ⟨⟨[], none⟩, none, none, none, none, none⟩, 0⟩ none
      (.node ⟨['a'], none⟩ (.node ⟨['b'], some ['x']⟩ .nil .nil) .nil) := by
  have hgap : Gap "\n".toList := .space (Or.inr (Or.inr rfl)) .nil
  have hleaf : Written (.node ⟨['b'], some ['x']⟩ .nil .nil) "\n <b>x</b>\n".toList :=
    .leaf (.space (Or.inr (Or.inr rfl)) (.space (Or.inl rfl) .nil)) (.nil hgap)
  have hwritten : Written (.node ⟨['a'], none⟩ (.node ⟨['b'], some ['x']⟩ .nil .nil) .nil)
      "<a>\n <b>x</b>\n</a>\n".toList :=
    .inner .nil (by simp) hleaf (.nil hgap)
  exact (roundTrips_iff hwritten
    ⟨isKey_letter (by decide), rfl,
      ⟨isKey_letter (by decide), ⟨_, rfl, isToken_letter (by decide)⟩, trivial, trivial⟩, trivial⟩
    _ _ _ _ _ _).mpr ⟨⟨trivial, trivial⟩, trivial⟩

/-- The second inner node gets the empty text in front of its child as a value. -/
theorem not_roundTrips_late :
    ¬ ∀ (t : Registry) (text : Text), Written t text → Elements t →
      ∀ (fresh : Fresh) (files : Files) (depth : ℕ) (path : Text) (nodes : Nodes)
        (error : Option Text), RoundTrips fresh files depth path text nodes error t := by
  intro h
  have hc : Written (.node ⟨['c'], none⟩ (.node ⟨['b'], some ['y']⟩ .nil .nil) .nil)
      "<c><b>y</b></c>".toList :=
    .inner .nil (by simp) (.leaf .nil (.nil .nil)) (.nil .nil)
  have hkids : Written (.node ⟨['b'], some ['x']⟩ .nil
      (.node ⟨['c'], none⟩ (.node ⟨['b'], some ['y']⟩ .nil .nil) .nil))
      "<b>x</b><c><b>y</b></c>".toList := .leaf .nil hc
  have hwritten : Written (.node ⟨['a'], none⟩ (.node ⟨['b'], some ['x']⟩ .nil
      (.node ⟨['c'], none⟩ (.node ⟨['b'], some ['y']⟩ .nil .nil) .nil)) .nil)
      "<a><b>x</b><c><b>y</b></c></a>".toList :=
    .inner .nil (by simp) hkids (.nil .nil)
  have hb (ch : Char) (hch : ch ∈ "abcxy".toList) :
      Elements (.node ⟨['b'], some [ch]⟩ .nil .nil) :=
    ⟨isKey_letter (by decide), ⟨_, rfl, isToken_letter hch⟩, trivial, trivial⟩
  have helements : Elements (.node ⟨['a'], none⟩ (.node ⟨['b'], some ['x']⟩ .nil
      (.node ⟨['c'], none⟩ (.node ⟨['b'], some ['y']⟩ .nil .nil) .nil)) .nil) :=
    ⟨isKey_letter (by decide), rfl,
      ⟨isKey_letter (by decide), ⟨_, rfl, isToken_letter (by decide)⟩, trivial,
        isKey_letter (by decide), rfl, hb 'y' (by decide), trivial⟩, trivial⟩
  obtain ⟨t', hread, hiff⟩ := roundTrips_readAs hwritten helements (fun _ _ => ' ')
    (fun _ => none) 0 [] ⟨fun _ => ⟨⟨[], none⟩, none, none, none, none, none⟩, 0⟩ none
  have hspine := (hread.eq_iff helements).mp (hiff.mp (h _ _ hwritten helements _ _ _ _ _ _))
  exact nomatch hspine.1.2.1

end ModCaucho
