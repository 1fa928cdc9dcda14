import Mathlib.Data.List.Nodup
import Mathlib.Tactic.Common

/-!
# Trying candidates in order

`scan f as s` runs a stateful test on the candidates of a list until one is
accepted. A test is local for a view when it decides on the candidate's own part
of the state and leaves the parts of the other candidates alone. A scan of a
local test over a list without repetition accepts the first candidate that the
test accepts in the initial state, and a scan that accepts nothing has applied
the test's rejection to every candidate of the list and to nothing else.
-/

namespace Scan

variable {α σ β : Type*}

/-- Runs the test on each candidate until one is accepted. -/
def scan (f : α → σ → Bool × σ) : List α → σ → Bool × σ
  | [], s => (false, s)
  | a :: as, s =>
      let (accepted, s) := f a s
      if accepted then (true, s) else scan f as s

@[simp] theorem scan_nil (f : α → σ → Bool × σ) (s : σ) : scan f [] s = (false, s) := rfl

theorem scan_cons_of_true {f : α → σ → Bool × σ} {a : α} {s : σ} (h : (f a s).1 = true)
    (as : List α) : scan f (a :: as) s = (true, (f a s).2) := by
  simp [scan, h]

theorem scan_cons_of_false {f : α → σ → Bool × σ} {a : α} {s : σ} (h : (f a s).1 = false)
    (as : List α) : scan f (a :: as) s = scan f as (f a s).2 := by
  simp [scan, h]

/-- A successful scan splits its list at the accepted candidate. -/
theorem scan_true {f : α → σ → Bool × σ} {as : List α} {s : σ}
    (h : (scan f as s).1 = true) :
    ∃ pre a post, as = pre ++ a :: post ∧ (scan f pre s).1 = false ∧
      (f a (scan f pre s).2).1 = true ∧
      (scan f as s).2 = (f a (scan f pre s).2).2 := by
  induction as generalizing s with
  | nil => cases h
  | cons a as ih =>
      cases ha : (f a s).1 with
      | true =>
          refine ⟨[], a, as, rfl, rfl, ha, ?_⟩
          rw [scan_cons_of_true ha]
          rfl
      | false =>
          rw [scan_cons_of_false ha] at h ⊢
          obtain ⟨pre, b, post, rfl, hpre, hb, hs⟩ := ih h
          refine ⟨a :: pre, b, post, rfl, ?_, ?_, ?_⟩
          · rw [scan_cons_of_false ha]
            exact hpre
          · rw [scan_cons_of_false ha]
            exact hb
          · rw [scan_cons_of_false ha]
            exact hs

/-- What every run of the test preserves, a scan preserves. -/
theorem scan_induction {f : α → σ → Bool × σ} {P : σ → Prop} {as : List α}
    (hstep : ∀ a ∈ as, ∀ s, P s → P (f a s).2) {s : σ} (hs : P s) :
    P (scan f as s).2 := by
  induction as generalizing s with
  | nil => exact hs
  | cons a as ih =>
      have ha := hstep a (by simp) s hs
      cases hf : (f a s).1 with
      | true => rwa [scan_cons_of_true hf]
      | false =>
          rw [scan_cons_of_false hf]
          exact ih (fun b hb => hstep b (by simp [hb])) ha

/-- What every rejection preserves holds until a candidate is accepted, and then what
the acceptance makes of it. -/
theorem scan_cases {f : α → σ → Bool × σ} {P Q : σ → Prop} {as : List α}
    (hreject : ∀ a ∈ as, ∀ s, P s → (f a s).1 = false → P (f a s).2)
    (haccept : ∀ a ∈ as, ∀ s, P s → (f a s).1 = true → Q (f a s).2) {s : σ} (hs : P s) :
    ((scan f as s).1 = false → P (scan f as s).2) ∧
      ((scan f as s).1 = true → Q (scan f as s).2) := by
  induction as generalizing s with
  | nil => exact ⟨fun _ => hs, fun h => Bool.noConfusion h⟩
  | cons a as ih =>
      cases hf : (f a s).1 with
      | true =>
          rw [scan_cons_of_true hf]
          exact ⟨fun h => Bool.noConfusion h, fun _ => haccept a (by simp) s hs hf⟩
      | false =>
          rw [scan_cons_of_false hf]
          exact ih (fun b hb => hreject b (by simp [hb]))
            (fun b hb => haccept b (by simp [hb])) (hreject a (by simp) s hs hf)

/-- The test `f` decides on the candidate's view of the state by `accepts`,
changes that view by `reject` where it does not accept, and keeps the views of
the other candidates. -/
structure Local (f : α → σ → Bool × σ) (view : σ → α → β) (accepts : α → β → Prop)
    (reject : α → β → β) : Prop where
  decides : ∀ a s, (f a s).1 = true ↔ accepts a (view s a)
  rejects : ∀ a s, (f a s).1 = false → view (f a s).2 a = reject a (view s a)
  frame : ∀ a s b, b ≠ a → view (f a s).2 b = view s b

section Local

variable {f : α → σ → Bool × σ} {view : σ → α → β} {accepts : α → β → Prop}
  {reject : α → β → β}

theorem Local.rejected_iff (h : Local f view accepts reject) (a : α) (s : σ) :
    (f a s).1 = false ↔ ¬ accepts a (view s a) := by
  rw [← h.decides a s, Bool.not_eq_true]

/-- A scan leaves the views of everything outside its list alone. -/
theorem Local.scan_frame (h : Local f view accepts reject) {as : List α} {b : α}
    (hb : b ∉ as) (s : σ) : view (scan f as s).2 b = view s b := by
  apply scan_induction (P := fun t => view t b = view s b)
  · intro a ha t ht
    rw [h.frame a t b (fun heq => hb (heq ▸ ha)), ht]
  · rfl

/-- A scan accepts nothing exactly when the test accepts no candidate in the
initial state. -/
theorem Local.scan_false_iff (h : Local f view accepts reject) {as : List α}
    (hnodup : as.Nodup) (s : σ) :
    (scan f as s).1 = false ↔ ∀ a ∈ as, ¬ accepts a (view s a) := by
  induction as generalizing s with
  | nil => simp
  | cons a as ih =>
      obtain ⟨ha, hnodup⟩ := List.nodup_cons.mp hnodup
      have hkeep : ∀ b ∈ as, view (f a s).2 b = view s b := by
        intro b hb
        exact h.frame a s b (fun heq => ha (heq ▸ hb))
      cases hf : (f a s).1 with
      | true =>
          have hacc := (h.decides a s).mp hf
          rw [scan_cons_of_true hf]
          simp [hacc]
      | false =>
          have hrej := (h.rejected_iff a s).mp hf
          rw [scan_cons_of_false hf, ih hnodup, List.forall_mem_cons]
          constructor
          · intro hall
            exact ⟨hrej, fun b hb => hkeep b hb ▸ hall b hb⟩
          · rintro ⟨-, hall⟩ b hb
            rw [hkeep b hb]
            exact hall b hb

/-- After a scan that accepted nothing, every candidate's view is the rejected
one. -/
theorem Local.scan_rejects (h : Local f view accepts reject) {as : List α}
    (hnodup : as.Nodup) {s : σ} (hfalse : (scan f as s).1 = false) {a : α} (ha : a ∈ as) :
    view (scan f as s).2 a = reject a (view s a) := by
  induction as generalizing s with
  | nil => cases ha
  | cons b as ih =>
      obtain ⟨hb, hnodup⟩ := List.nodup_cons.mp hnodup
      cases hf : (f b s).1 with
      | true =>
          rw [scan_cons_of_true hf] at hfalse
          cases hfalse
      | false =>
          rw [scan_cons_of_false hf] at hfalse ⊢
          rcases List.mem_cons.mp ha with rfl | hmem
          · rw [h.scan_frame hb, h.rejects a s hf]
          · rw [ih hnodup hfalse hmem, h.frame b s a (fun heq => hb (heq ▸ hmem))]

/-- A successful scan accepts the first candidate that the test accepts in the
initial state. -/
theorem Local.scan_true (h : Local f view accepts reject) {as : List α}
    (hnodup : as.Nodup) {s : σ} (htrue : (scan f as s).1 = true) :
    ∃ pre a post, as = pre ++ a :: post ∧ (∀ b ∈ pre, ¬ accepts b (view s b)) ∧
      accepts a (view s a) ∧ (scan f pre s).1 = false ∧
      view (scan f pre s).2 a = view s a ∧
      (scan f as s).2 = (f a (scan f pre s).2).2 := by
  obtain ⟨pre, a, post, rfl, hpre, ha, hs⟩ := Scan.scan_true htrue
  have hpre_nodup : pre.Nodup := (List.nodup_append.mp hnodup).1
  have hnot : a ∉ pre := by
    intro hmem
    exact (List.nodup_append.mp hnodup).2.2 a hmem a (by simp) rfl
  have hkeep := h.scan_frame hnot s
  refine ⟨pre, a, post, rfl, (h.scan_false_iff hpre_nodup s).mp hpre, ?_, hpre, hkeep, hs⟩
  rw [← hkeep]
  exact (h.decides a _).mp ha

/-- What a successful scan leaves of the candidates that it did not accept: those
before the accepted one are rejected, those behind it were not looked at. -/
theorem Local.scan_others (h : Local f view accepts reject) {pre post : List α} {a : α}
    (hnodup : (pre ++ a :: post).Nodup) {s : σ} (hpre : (scan f pre s).1 = false) :
    (∀ b ∈ pre, view (f a (scan f pre s).2).2 b = reject b (view s b)) ∧
      ∀ b ∈ post, view (f a (scan f pre s).2).2 b = view s b := by
  obtain ⟨hpre_nodup, hpost_nodup, hdisjoint⟩ := List.nodup_append.mp hnodup
  constructor
  · intro b hb
    rw [h.frame a _ b (hdisjoint b hb a (by simp))]
    exact h.scan_rejects hpre_nodup hpre hb
  · intro b hb
    have hne : b ≠ a := fun heq => (List.nodup_cons.mp hpost_nodup).1 (heq ▸ hb)
    have hbpre : b ∉ pre := fun hmem => hdisjoint b hmem b (by simp [hb]) rfl
    rw [h.frame a _ b hne, h.scan_frame hbpre]

/-- The candidate that a scan accepts is determined: it is the one that splits
the list behind candidates that are all rejected. -/
theorem Local.scan_of_first (h : Local f view accepts reject) {pre post : List α} {a : α}
    (hnodup : (pre ++ a :: post).Nodup) {s : σ} (hpre : ∀ b ∈ pre, ¬ accepts b (view s b))
    (ha : accepts a (view s a)) :
    scan f (pre ++ a :: post) s = (true, (f a (scan f pre s).2).2) := by
  induction pre generalizing s with
  | nil =>
      rw [List.nil_append, scan_cons_of_true ((h.decides a s).mpr ha)]
      rfl
  | cons b pre ih =>
      obtain ⟨hb, hnodup⟩ := List.nodup_cons.mp hnodup
      have hkeep : ∀ c ∈ pre ++ a :: post, view (f b s).2 c = view s c := by
        intro c hc
        exact h.frame b s c (fun heq => hb (heq ▸ hc))
      have hf := (h.rejected_iff b s).mpr (hpre b (by simp))
      rw [List.cons_append, scan_cons_of_false hf, scan_cons_of_false hf]
      apply ih hnodup
      · intro c hc
        rw [hkeep c (by simp [hc])]
        exact hpre c (by simp [hc])
      · rw [hkeep a (by simp)]
        exact ha

end Local

end Scan
