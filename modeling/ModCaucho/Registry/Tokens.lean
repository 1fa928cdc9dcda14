import ModCaucho.Registry.Lex

/-!
# Tokens in the buffer

`buf_append` takes a new block when the buffer is full and forgets to copy the token that is
half read, so that its front is whatever the new memory contains. A token is stored as it
stands in the file exactly if the buffer does not grow while it is read. The indices that
are written are always in the block.
-/

namespace ModCaucho

/-- What is appended after `length` was set to 0. -/
def appendAll (fresh : Fresh) (is : Rstream) (cs : Text) : Rstream :=
  cs.foldl (bufAppend fresh) { is with buf := [] }

/-- The streams that the functions of the parser bring about: they append to the buffer or
empty it, and read from the file or go back in it. -/
inductive Reached (fresh : Fresh) : Rstream → Prop
  | start (file : Text) : Reached fresh (.start file)
  | append {is : Rstream} (h : Reached fresh is) (ch : Char) : Reached fresh (bufAppend fresh is ch)
  | empty {is : Rstream} (h : Reached fresh is) : Reached fresh { is with buf := [] }
  | move {is : Rstream} (h : Reached fresh is) (file : Text) (line : ℕ) :
      Reached fresh { is with file := file, line := line }

/-- The buffer has a block of its capacity at least, and room for a character and a NUL. -/
structure Roomy (is : Rstream) : Prop where
  capacity : 1024 ≤ is.capacity
  block : is.capacity ≤ is.block
  length : is.buf.length + 1 < is.capacity

/-- The same buffer, whatever is left of the file. -/
structure SameBuffer (is is' : Rstream) : Prop where
  buf : is.buf = is'.buf
  capacity : is.capacity = is'.capacity

variable {fresh : Fresh} {is is' : Rstream}

/-! ## One character -/

theorem Roomy.append (h : Roomy is) (ch : Char) : Roomy (bufAppend fresh is ch) := by
  obtain ⟨hcapacity, hblock, hlength⟩ := h
  unfold bufAppend
  split
  · refine ⟨?_, ?_, ?_⟩
    · simp only
      omega
    · simp only
      omega
    · simp only [List.length_append, List.length_map, List.length_range, List.length_singleton]
      omega
  · refine ⟨hcapacity, hblock, ?_⟩
    simp only [List.length_append, List.length_singleton]
    omega

theorem Roomy.empty (h : Roomy is) : Roomy { is with buf := [] } := by
  obtain ⟨hcapacity, hblock, hlength⟩ := h
  refine ⟨hcapacity, hblock, ?_⟩
  simp only [List.length_nil]
  omega

theorem Reached.roomy (h : Reached fresh is) : Roomy is := by
  induction h with
  | start file => exact ⟨Nat.le_refl _, Nat.le_refl _, show 0 + 1 < 1024 by decide⟩
  | append _ ch ih => exact ih.append ch
  | empty _ ih => exact ih.empty
  | move _ file line ih => exact ⟨ih.capacity, ih.block, ih.length⟩

theorem Roomy.lt_block (h : Roomy is) : is.buf.length < is.block := by
  obtain ⟨-, hblock, hlength⟩ := h
  omega

theorem SameBuffer.append (h : SameBuffer is is') (ch : Char) :
    SameBuffer (bufAppend fresh is ch) (bufAppend fresh is' ch) := by
  obtain ⟨hbuf, hcapacity⟩ := h
  unfold bufAppend
  rw [hbuf, hcapacity]
  split
  · exact ⟨rfl, rfl⟩
  · exact ⟨by simp only [hbuf], hcapacity⟩

/-! ## All characters -/

theorem Roomy.appendAll (h : Roomy is) (cs : Text) : Roomy (appendAll fresh is cs) := by
  suffices hall : ∀ is : Rstream, Roomy is → Roomy (cs.foldl (bufAppend fresh) is) from
    hall _ h.empty
  induction cs with
  | nil => exact fun is h => h
  | cons ch cs ih => exact fun is h => ih _ (h.append ch)

theorem SameBuffer.foldl (h : SameBuffer is is') (cs : Text) :
    SameBuffer (cs.foldl (bufAppend fresh) is) (cs.foldl (bufAppend fresh) is') := by
  induction cs generalizing is is' with
  | nil => exact h
  | cons ch cs ih => exact ih (h.append ch)

/-- While the buffer does not grow the characters are stored. -/
theorem foldl_bufAppend_eq {cs : Text} (h : is.buf.length + cs.length + 1 < is.capacity) :
    cs.foldl (bufAppend fresh) is = { is with buf := is.buf ++ cs } := by
  induction cs generalizing is with
  | nil => simp
  | cons ch cs ih =>
      rw [List.length_cons] at h
      rw [List.foldl_cons, bufAppend_eq (by omega), ih]
      · simp
      · simp only [List.length_append, List.length_singleton]
        omega

/-- The first character of a block stays the first one. -/
theorem head_foldl_bufAppend {c : Char} (hc : is.buf.head? = some c) (cs : Text) :
    (cs.foldl (bufAppend fun _ _ => c) is).buf.head? = some c := by
  induction cs generalizing is with
  | nil => exact hc
  | cons ch cs ih =>
      refine ih ?_
      have hpos : 0 < is.buf.length := by
        cases hbuf : is.buf with
        | nil =>
            rw [hbuf] at hc
            cases hc
        | cons ch' buf => simp
      obtain ⟨k, hk⟩ : ∃ k, is.buf.length = k + 1 := ⟨is.buf.length - 1, by omega⟩
      unfold bufAppend
      split
      · simp [hk, List.range_succ_eq_map]
      · simp [List.head?_append, hc]

/-- A block that is taken while a token is read begins with what the memory contained. -/
theorem head_appendAll {c : Char} {cs : Text} (hcapacity : 1024 ≤ is.capacity)
    (hlong : is.capacity < cs.length + 2) :
    (appendAll (fun _ _ => c) is cs).buf.head? = some c := by
  obtain ⟨front, ch, rest, rfl, hfront⟩ : ∃ front ch rest, cs = front ++ ch :: rest ∧
      front.length = is.capacity - 2 := by
    have hlt : is.capacity - 2 < cs.length := by omega
    refine ⟨cs.take (is.capacity - 2), cs[is.capacity - 2], cs.drop (is.capacity - 2 + 1), ?_, ?_⟩
    · rw [List.getElem_cons_drop, List.take_append_drop]
    · rw [List.length_take]
      omega
  have hstored : front.foldl (bufAppend fun _ _ => c) { is with buf := [] } =
      { is with buf := front } := by
    rw [foldl_bufAppend_eq]
    · rfl
    · simp only [List.length_nil]
      omega
  rw [appendAll, List.foldl_append, List.foldl_cons, hstored]
  refine head_foldl_bufAppend ?_ rest
  obtain ⟨k, hk⟩ : ∃ k, front.length = k + 1 := ⟨front.length - 1, by omega⟩
  have hfull : front.length + 2 ≥ is.capacity := by omega
  unfold bufAppend
  rw [if_pos hfull]
  simp [hk, List.range_succ_eq_map]

/-- A token is stored whatever new memory contains if and only if the buffer does not grow
while it is appended. -/
theorem appendAll_eq_iff (hcapacity : 1024 ≤ is.capacity) (cs : Text) :
    (∀ fresh, (appendAll fresh is cs).buf = cs) ↔ cs.length + 2 ≤ is.capacity := by
  constructor
  · intro hall
    by_contra hlong
    have hhead (c : Char) : cs.head? = some c := by
      have h := @head_appendAll is c cs hcapacity (Nat.not_le.mp hlong)
      rwa [hall] at h
    have hsame := (hhead 'a').symm.trans (hhead 'b')
    exact absurd hsame (by decide)
  · intro hshort fresh
    rw [appendAll, foldl_bufAppend_eq]
    · rfl
    · simp only [List.length_nil]
      omega

/-! ## Tokens of a file -/

/-- The token of these characters that stands at the front of a file, behind the character
that is held. -/
def tokenAt (p : Char → Bool) (ch : Option Char) (file : Text) : Text :=
  match ch with
  | some ch => (ch :: file).takeWhile p
  | none => []

theorem SameBuffer.trans {is'' : Rstream} (h : SameBuffer is is') (h' : SameBuffer is' is'') :
    SameBuffer is is'' :=
  ⟨h.buf.trans h'.buf, h.capacity.trans h'.capacity⟩

/-- The loop appends the token. -/
theorem forWhile_buffer {p : Char → Bool} {fuel : ℕ} {ch : Option Char}
    (hfuel : charsLeft ch is ≤ fuel) :
    SameBuffer (forWhile p (bufAppend fresh) fuel ch is).2
      ((tokenAt p ch is.file).foldl (bufAppend fresh) is) := by
  induction fuel generalizing ch is with
  | zero =>
      cases ch with
      | none => exact ⟨rfl, rfl⟩
      | some ch => simp [charsLeft] at hfuel
  | succ fuel ih =>
      cases ch with
      | none => exact ⟨rfl, rfl⟩
      | some ch =>
          by_cases hp : p ch
          · have hfile := @bufAppend_file fresh is ch
            rw [forWhile, if_pos hp, tokenAt, List.takeWhile_cons_of_pos hp, List.foldl_cons]
            cases hnext : is.file with
            | nil =>
                rw [hnext] at hfile
                simp only [bufRead, hfile]
                cases fuel <;> exact ⟨rfl, rfl⟩
            | cons ch' file =>
                rw [hnext] at hfile
                simp only [bufRead, hfile]
                have hmoved (line : ℕ) : SameBuffer
                    { bufAppend fresh is ch with file := file, line := line }
                    (bufAppend fresh is ch) := ⟨rfl, rfl⟩
                refine SameBuffer.trans (ih ?_) ((hmoved _).foldl _)
                simp only [charsLeft, hnext, Option.toList_some, List.length_cons] at hfuel ⊢
                omega
          · rw [forWhile, if_neg hp, tokenAt, List.takeWhile_cons_of_neg hp]
            exact ⟨rfl, rfl⟩

/-- What a loop over a token leaves in the buffer is what appending the token does. -/
theorem readToken_buf (p : Char → Bool) (ch : Option Char) (is : Rstream) :
    (readToken fresh p ch is).2.buf = (appendAll fresh is (tokenAt p ch is.file)).buf :=
  (forWhile_buffer (charsLeft_le ch { is with buf := [] })).buf

/-- The rounds of the loop of `cse_parse` over text append it. -/
theorem foldlM_step_text {files : Files}
    {parse : Text → Text → Nodes → Option Text → Except Stop Parsed} {path : Text} {text : Text}
    (htext : '<' ∉ text) (s : Parser) :
    ∃ s', text.foldlM (Parser.step fresh files parse path) s = .ok s' ∧
      s'.is = text.foldl (bufAppend fresh) s.is := by
  induction text generalizing s with
  | nil => exact ⟨s, rfl, rfl⟩
  | cons ch text ih =>
      rw [List.mem_cons, not_or] at htext
      obtain ⟨s₁, hs₁, his⟩ : ∃ s₁, Parser.step fresh files parse path s ch = .ok s₁ ∧
          s₁.is = bufAppend fresh s.is ch := by
        unfold Parser.step
        split
        · exact ⟨_, rfl, rfl⟩
        · rw [if_pos (Ne.symm htext.1)]
          exact ⟨_, rfl, rfl⟩
      obtain ⟨s', hs', his'⟩ := ih htext.2 s₁
      refine ⟨s', ?_, ?_⟩
      · rw [List.foldlM_cons, hs₁]
        exact hs'
      · rw [his', his, List.foldl_cons]

/-- Whatever has been read before, the indices that are written, that of the NUL too, are in
the block. Characters that are appended, a token that is read of a tag and text between
tags are stored, whatever new memory contains, if and only if they are shorter by two than
the capacity. -/
theorem stores_iff (h : Reached fresh is) :
    (∀ cs ch, (appendAll fresh is cs).buf.length < (appendAll fresh is cs).block ∧
      (appendAll fresh is cs).buf.length < (bufAppend fresh (appendAll fresh is cs) ch).block) ∧
    (∀ cs, (∀ fresh, (appendAll fresh is cs).buf = cs) ↔ cs.length + 2 ≤ is.capacity) ∧
    (∀ p ch, (∀ fresh, (readToken fresh p ch is).2.buf = tokenAt p ch is.file) ↔
      (tokenAt p ch is.file).length + 2 ≤ is.capacity) ∧
    ∀ files parse path (text : Text) (s : Parser), '<' ∉ text → s.is = { is with buf := [] } →
      ((∀ fresh, ∃ s', text.foldlM (Parser.step fresh files parse path) s = .ok s' ∧
          s'.is.buf = text) ↔
        text.length + 2 ≤ is.capacity) := by
  have hroomy := h.roomy
  refine ⟨fun cs ch => ?_, appendAll_eq_iff hroomy.capacity, fun p ch => ?_, ?_⟩
  · have hall : Roomy (appendAll fresh is cs) := hroomy.appendAll cs
    have hone : Roomy (bufAppend fresh (appendAll fresh is cs) ch) := hall.append ch
    have hgrows := @bufAppend_capacity fresh (appendAll fresh is cs) ch
    have hlength := hall.length
    have hblock := hone.block
    exact ⟨hall.lt_block, by omega⟩
  · simp only [readToken_buf]
    exact appendAll_eq_iff hroomy.capacity _
  · intro files parse path text s htext his
    rw [← appendAll_eq_iff hroomy.capacity]
    refine forall_congr' fun fresh => ?_
    obtain ⟨s', hs', his'⟩ := @foldlM_step_text fresh files parse path text htext s
    rw [hs', appendAll, ← his, ← his']
    constructor
    · rintro ⟨s'', hs'', hbuf⟩
      cases hs''
      exact hbuf
    · exact fun hbuf => ⟨s', rfl, hbuf⟩

/-- A short value in the first buffer. -/
theorem stores_iff_short :
    (appendAll (fun _ _ => 'x') (.start []) "value".toList).buf = "value".toList :=
  ((stores_iff (@Reached.start (fun _ _ => 'x') [])).2.1 "value".toList).mpr (by decide) _

/-- The front of a token of 1023 characters is not copied to the second block. -/
theorem not_stores_long :
    ¬ ∀ (fresh : Fresh) (file cs : Text), (appendAll fresh (.start file) cs).buf = cs := by
  intro hclaim
  have hshort := (@appendAll_eq_iff (.start []) (Nat.le_refl _)
    (List.replicate 1023 'a')).mp fun fresh => hclaim fresh [] _
  rw [List.length_replicate] at hshort
  exact absurd hshort (by decide)

end ModCaucho
