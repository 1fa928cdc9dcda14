import ModCaucho.Lib.Forest

/-!
# Replacing nodes of a forest

Each marked node of a forest is replaced by other siblings. Where the first child of a node
is marked, its children hang below one node more. The cursor of a builder goes along: what it
builds can be replaced step by step, or when everything is built.
-/

namespace LinkedForest

variable {α : Type*} (m : α → Bool) (d : α)

namespace Forest

/-- Whether the first of the siblings is marked. -/
def marked : Forest α → Bool
  | nil => false
  | node a _ _ => m a

/-- What is made of these siblings, below a node more if the first of them is marked. -/
def hung (f t : Forest α) : Forest α := if f.marked m then node d t nil else t

/-- The forest with other siblings in place of each marked node. -/
def replace : Forest α → Forest α → Forest α
  | nil, _ => nil
  | node a f n, s =>
      if m a then s.append (replace n s) else node a (hung m d f (replace f s)) (replace n s)

variable {m d} {s t : Forest α}

/-- The number of marked nodes. -/
theorem count_marked (b b' : Bool) (t : Forest α) :
    t.count (fun _ a _ => m a) b = t.count (fun _ a _ => m a) b' := by
  cases t <;> rfl

theorem count_marked_append (b b' b'' : Bool) (t u : Forest α) :
    (t.append u).count (fun _ a _ => m a) b =
      t.count (fun _ a _ => m a) b' + u.count (fun _ a _ => m a) b'' := by
  by_cases h : t = nil
  · rw [h, nil_append, count, Nat.zero_add]
    exact count_marked b b'' u
  · rw [count_append _ b h]
    exact congrArg₂ _ (count_marked b b' t) (count_marked false b'' u)

theorem replace_of_count {b : Bool} (h : t.count (fun _ a _ => m a) b = 0) :
    t.replace m d s = t ∧ t.marked m = false := by
  induction t generalizing b with
  | nil => exact ⟨rfl, rfl⟩
  | node a f n ihf ihn =>
      rw [count] at h
      have hm : m a = false := by
        by_contra hm
        rw [Bool.not_eq_false] at hm
        simp [hm] at h
      obtain ⟨hf, hfirst⟩ := @ihf true (by omega)
      obtain ⟨hn, -⟩ := @ihn false (by omega)
      refine ⟨?_, hm⟩
      rw [replace, hm, if_neg Bool.false_ne_true, hung, hfirst, if_neg Bool.false_ne_true, hf, hn]

theorem replace_append (t u : Forest α) :
    (t.append u).replace m d s = (t.replace m d s).append (u.replace m d s) := by
  induction t with
  | nil => rfl
  | node a f n _ ih =>
      rw [node_append, replace, replace, ih]
      split
      · rw [append_assoc]
      · rw [node_append]

theorem marked_append (h : t ≠ nil) (u : Forest α) : (t.append u).marked m = t.marked m := by
  cases t with
  | nil => exact absurd rfl h
  | node a f n => rfl

theorem replace_eq_nil_iff (hs : s ≠ nil) (t : Forest α) : t.replace m d s = nil ↔ t = nil := by
  cases t with
  | nil => simp [replace]
  | node a f n =>
      rw [replace]
      split
      · simp [append_eq_nil_iff, hs]
      · simp

/-- No marked node is left, if the other siblings and the node more are not marked. -/
theorem count_replace (hd : m d = false) (hs : s.count (fun _ a _ => m a) true = 0) (b : Bool)
    (t : Forest α) : (t.replace m d s).count (fun _ a _ => m a) b = 0 := by
  induction t generalizing b with
  | nil => rfl
  | node a f n ihf ihn =>
      rw [replace]
      split
      · rw [count_marked_append b true true, hs, ihn true]
      · next hm =>
          have hhung : (hung m d f (f.replace m d s)).count (fun _ a _ => m a) true = 0 := by
            unfold hung
            split
            · simp [count, hd, ihf true]
            · exact ihf true
          simp [count, hm, hhung, ihn false]

/-- No node of the layer is marked. -/
def Layer.Unmarked (m : α → Bool) (layer : Layer α) : Prop :=
  layer.left.count (fun _ a _ => m a) true = 0 ∧ m layer.data = false ∧
    layer.right.count (fun _ a _ => m a) true = 0

/-- Only what is marked is replaced. -/
theorem hung_replace_plug {path : List (Layer α)} (h : ∀ layer ∈ path, layer.Unmarked m)
    (t : Forest α) :
    hung m d (plug path t) ((plug path t).replace m d s) =
      plug path (hung m d t (t.replace m d s)) := by
  induction path with
  | nil => rfl
  | cons layer path ih =>
      obtain ⟨hleft, hdata, hright⟩ := h layer List.mem_cons_self
      have hrest := ih fun layer' hmem => h layer' (List.mem_cons_of_mem _ hmem)
      obtain ⟨hl, hlm⟩ := @replace_of_count _ m d s _ _ hleft
      obtain ⟨hr, -⟩ := @replace_of_count _ m d s _ _ hright
      have hmarked : (plug (layer :: path) t).marked m = false := by
        rw [plug]
        cases hnil : layer.left with
        | nil => exact hdata
        | node a f n =>
            rw [hnil] at hlm
            exact hlm
      rw [hung, hmarked, if_neg Bool.false_ne_true, plug, replace_append, hl, replace, hdata,
        if_neg Bool.false_ne_true, hrest, hr, plug]

theorem count_marked_plug (m : α → Bool) (path : List (Layer α)) :
    ∃ n, ∀ b t, (plug path t).count (fun _ a _ => m a) b = n + t.count (fun _ a _ => m a) true := by
  induction path with
  | nil =>
      refine ⟨0, fun b t => ?_⟩
      rw [Nat.zero_add]
      exact count_marked b true t
  | cons layer path ih =>
      obtain ⟨n, hn⟩ := ih
      refine ⟨layer.left.count (fun _ a _ => m a) true + (if m layer.data then 1 else 0) + n +
        layer.right.count (fun _ a _ => m a) false, fun b t => ?_⟩
      rw [plug, count_marked_append b true true, count, hn]
      omega

/-- The one marked node of a forest is not on the way to itself. -/
theorem unmarked_of_count_plug {path : List (Layer α)} {b : Bool}
    (h : (plug path t).count (fun _ a _ => m a) b = 1)
    (ht : t.count (fun _ a _ => m a) true ≠ 0) :
    (∀ layer ∈ path, layer.Unmarked m) ∧ t.count (fun _ a _ => m a) true = 1 := by
  induction path generalizing b with
  | nil => exact ⟨fun _ hmem => absurd hmem List.not_mem_nil, (count_marked true b t).trans h⟩
  | cons layer path ih =>
      rw [plug, count_marked_append b true true, count] at h
      obtain ⟨n, hn⟩ := count_marked_plug m path
      have hpos := hn true t
      have hright := @count_marked _ m false true layer.right
      obtain ⟨hrest, hcount⟩ := @ih true (by omega)
      refine ⟨fun layer' hmem => ?_, hcount⟩
      rcases List.mem_cons.mp hmem with rfl | hmem
      · refine ⟨by omega, ?_, by omega⟩
        by_contra hdata
        rw [Bool.not_eq_false] at hdata
        rw [if_pos hdata] at h
        omega
      · exact hrest layer' hmem

end Forest

/-! ## The cursor -/

namespace Frame

open Forest

/-- The open node with the marked ones of its closed children replaced. -/
def replace (fr : Frame α) (s : Forest α) : Frame α :=
  ⟨fr.data, fr.kids.replace m d s, if fr.kids.marked m then some d else none⟩

variable {m d} {s : Forest α} {fr up : Frame α} {ups : List (Frame α)}

theorem replace_of_count (hfr : fr.behind = none) {b : Bool}
    (h : fr.kids.count (fun _ a _ => m a) b = 0) : fr.replace m d s = fr := by
  obtain ⟨hkids, hmarked⟩ := @Forest.replace_of_count _ m d s _ _ h
  rw [replace, hkids, hmarked, if_neg Bool.false_ne_true, ← hfr]

theorem tree_replace (hfr : fr.behind = none) (hdata : m fr.data = false) :
    (fr.replace m d s).tree = fr.tree.replace m d s := by
  have hforest : (fr.replace m d s).forest = hung m d fr.kids (fr.kids.replace m d s) := by
    unfold replace forest hung
    cases fr.kids.marked m <;> rfl
  have htree : fr.tree = .node fr.data fr.kids .nil := by
    rw [tree, forest, hfr]
  rw [tree, hforest, htree, Forest.replace, hdata, if_neg Bool.false_ne_true]
  rfl

/-- A node that is not marked may be closed before or after. -/
theorem add_tree_replace (hfr : fr.behind = none) (hdata : m fr.data = false) :
    (up.add fr.tree).replace m d s = (up.replace m d s).add (fr.replace m d s).tree := by
  have hmarked : (up.kids.append fr.tree).marked m = up.kids.marked m := by
    cases hnil : up.kids with
    | nil => exact hdata
    | node a f n => rfl
  rw [tree_replace hfr hdata]
  unfold add replace
  simp only [replace_append, hmarked]

/-- A marked node is replaced when it is closed. -/
theorem add_tree_graft (hs : s ≠ .nil) (hdata : m fr.data = true) :
    (up.add fr.tree).replace m d s = (up.replace m d s).graft d s := by
  have htree : fr.tree.replace m d s = s := by
    rw [tree, Forest.replace, if_pos hdata, Forest.replace, append_nil]
  unfold add replace graft
  simp only [replace_append, htree]
  cases hnil : up.kids with
  | nil =>
      have hmarked : (fr.tree).marked m = true := hdata
      simp [hmarked, Forest.replace]
  | node a f n =>
      cases hreplaced : (node a f n).replace m d s with
      | nil => cases (replace_eq_nil_iff hs _).mp hreplaced
      | node a' f' n' => rfl

/-- Closing a node keeps its children and those of the node above. -/
theorem count_le_add_tree (P : Bool → α → Forest α → Bool) (hfr : fr.behind = none) :
    up.kids.count P true + fr.kids.count P true ≤ (up.add fr.tree).kids.count P true := by
  have hadd : (up.add fr.tree).kids = up.kids.append (.node fr.data fr.kids .nil) := by
    rw [add, tree, forest, hfr]
  obtain ⟨c, hc⟩ : ∃ c : Bool, c = true ↔ up.kids = .nil := by
    cases up.kids with
    | nil => exact ⟨true, by simp⟩
    | node a f n => exact ⟨false, by simp⟩
  rw [hadd, count_append_node P hc]
  omega

theorem count_le_closeAll (P : Bool → α → Forest α → Bool) (b : Bool)
    (hplain : ∀ up ∈ fr :: ups, up.behind = none) :
    count P (fr :: ups) ≤ (fr.closeAll ups).tree.count P b := by
  have htree : fr.tree = .node fr.data fr.kids .nil := by
    rw [tree, forest, hplain fr List.mem_cons_self]
  induction ups generalizing fr with
  | nil =>
      rw [closeAll, htree, Forest.count, count_cons, count, List.map_nil, List.sum_nil]
      omega
  | cons up ups ih =>
      have hup := hplain up (by simp)
      have hplain' : ∀ up' ∈ up.add fr.tree :: ups, up'.behind = none := by
        intro up' hup'
        rcases List.mem_cons.mp hup' with rfl | hmem
        · exact hup
        · exact hplain up' (by simp [hmem])
      have hrest := ih hplain' (by rw [tree, forest]; simp [hup, add])
      have hone := @count_le_add_tree _ fr up P (hplain fr List.mem_cons_self)
      rw [count_cons] at hrest
      rw [closeAll, count_cons, count_cons]
      omega

/-- Closing the open nodes counts those that are marked. -/
theorem count_closeAll (b : Bool) (hplain : ∀ up ∈ fr :: ups, up.behind = none) :
    (fr.closeAll ups).tree.count (fun _ a _ => m a) b =
      count (fun _ a _ => m a) (fr :: ups) + (fr :: ups).countP fun up => m up.data := by
  have htree : fr.tree = .node fr.data fr.kids .nil := by
    rw [tree, forest, hplain fr List.mem_cons_self]
  induction ups generalizing fr with
  | nil =>
      rw [closeAll, htree, Forest.count, count_cons, List.countP_singleton]
      simp only [Forest.count, count, List.map_nil, List.sum_nil]
      omega
  | cons up ups ih =>
      have hup := hplain up (by simp)
      have hplain' : ∀ up' ∈ up.add fr.tree :: ups, up'.behind = none := by
        intro up' hup'
        rcases List.mem_cons.mp hup' with rfl | hmem
        · exact hup
        · exact hplain up' (by simp [hmem])
      have hadd : (up.add fr.tree).kids = up.kids.append (.node fr.data fr.kids .nil) := by
        rw [← htree]
        rfl
      rw [closeAll, ih hplain' (by rw [tree, forest]; simp [hup, add]), count_cons, hadd,
        count_marked_append true true true, Forest.count, count_cons, count_cons]
      simp only [Forest.count, List.countP_cons, add]
      omega

/-- Everything may be closed before or after. -/
theorem closeAll_replace (hplain : ∀ up ∈ fr :: ups, up.behind = none)
    (hdata : ∀ up ∈ fr :: ups, m up.data = false) :
    (fr.closeAll ups).replace m d s =
      (fr.replace m d s).closeAll (ups.map fun up => up.replace m d s) := by
  induction ups generalizing fr with
  | nil => rfl
  | cons up ups ih =>
      rw [closeAll, List.map_cons, closeAll, ← add_tree_replace (hplain fr List.mem_cons_self)
        (hdata fr List.mem_cons_self)]
      refine ih (fun up' hup' => ?_) fun up' hup' => ?_
      · rcases List.mem_cons.mp hup' with rfl | hmem
        · exact hplain up (by simp)
        · exact hplain up' (by simp [hmem])
      · rcases List.mem_cons.mp hup' with rfl | hmem
        · exact hdata up (by simp)
        · exact hdata up' (by simp [hmem])

end Frame

end LinkedForest
