import ContractHost.Proofs.Value.Reach

/-!
# Writing values by recursion

The binary form of a value is its own bytes and then the forms of what is directly inside it. This
recursive reading of the format writes each container below those that enclose it, and says when
it succeeds: nothing inside contains itself, nothing is a handle, and the whole form fits.
-/

namespace ContractHost

namespace Encoder

/-- What a value adds by itself to the output. -/
def ownBytes (entry : EncodedItem) : Bytes := entry.tag.byte :: entry.body

/-- The containers that enclose what is directly inside a value. -/
def enclose (enclosing : List ContainerId) (value : StackValue) : List ContainerId :=
  value.container?.toList ++ enclosing

theorem children_of_item {heap : Heap} {value : StackValue} {entry : EncodedItem}
    (h : item heap value = .ok entry) : entry.children = heap.children value := by
  cases value <;> cases h <;> rfl

theorem handle_of_item {heap : Heap} {value : StackValue} {entry : EncodedItem}
    (h : item heap value = .ok entry) : value.handle? = none := by
  cases value <;> first | rfl | cases h

theorem item_of_handle (heap : Heap) {value : StackValue} (h : value.handle? = none) :
    ∃ entry, item heap value = .ok entry := by
  cases value with
  | handle => cases h
  | byteString | boolean | integer | array | struct | map => exact ⟨_, rfl⟩

theorem item_error {heap : Heap} {value : StackValue} {e : EncodeError}
    (h : item heap value = .error e) : e = .unsupportedType := by
  cases value <;> cases h
  rfl

theorem room_enclose_lt {heap : Heap} {enclosing : List ContainerId}
    {value child : StackValue} {entry : EncodedItem}
    (hfree : ∀ id ∈ value.container?, id ∉ enclosing)
    (hitem : item heap value = .ok entry) (hc : child ∈ entry.children) :
    heap.room (enclose enclosing value) < heap.room enclosing := by
  rw [children_of_item hitem] at hc
  obtain ⟨id, hid, hmem⟩ := Heap.Child.mem_containers hc
  rw [enclose, hid]
  exact Heap.room_cons_lt hmem (hfree id hid)

/-- Writes a value after the output so far and then, one by one, what is directly inside it. The
enclosing containers are those being written. -/
def writeNested (heap : Heap) (maxSize : Nat) (enclosing : List ContainerId) (output : Bytes)
    (value : StackValue) : Except EncodeError Bytes :=
  if _hfree : ∀ id ∈ value.container?, id ∉ enclosing then
    match _hitem : item heap value with
    | .error e => .error e
    | .ok entry =>
      let written := output ++ ownBytes entry
      if maxSize < written.length then .error (.itemTooLarge written.length maxSize)
      else
        entry.children.attach.foldlM
          (fun output ⟨child, _⟩ => writeNested heap maxSize (enclose enclosing value) output child)
          written
  else .error .cyclicStructure
termination_by heap.room enclosing
decreasing_by exact room_enclose_lt _hfree _hitem ‹_›

/-- The whole binary form of a value, of any size. A container inside itself and a handle have no
form and are left out. -/
def form (heap : Heap) (enclosing : List ContainerId) (value : StackValue) : Bytes :=
  if _hfree : ∀ id ∈ value.container?, id ∉ enclosing then
    match _hitem : item heap value with
    | .error _ => []
    | .ok entry =>
      ownBytes entry ++
        entry.children.attach.flatMap fun ⟨child, _⟩ => form heap (enclose enclosing value) child
  else []
termination_by heap.room enclosing
decreasing_by exact room_enclose_lt _hfree _hitem ‹_›

theorem writeNested_eq (heap : Heap) (maxSize : Nat) (enclosing : List ContainerId)
    (output : Bytes) (value : StackValue) :
    writeNested heap maxSize enclosing output value =
      if ∀ id ∈ value.container?, id ∉ enclosing then
        match item heap value with
        | .error e => .error e
        | .ok entry =>
          if maxSize < (output ++ ownBytes entry).length then
            .error (.itemTooLarge (output ++ ownBytes entry).length maxSize)
          else
            entry.children.foldlM (writeNested heap maxSize (enclose enclosing value))
              (output ++ ownBytes entry)
      else .error .cyclicStructure := by
  rw [writeNested]
  simp only [List.foldlM_subtype, List.unattach_attach]
  split
  · cases h : item heap value <;> rfl
  · rfl

theorem form_eq (heap : Heap) (enclosing : List ContainerId) (value : StackValue) :
    form heap enclosing value =
      if ∀ id ∈ value.container?, id ∉ enclosing then
        match item heap value with
        | .error _ => []
        | .ok entry =>
          ownBytes entry ++ entry.children.flatMap (form heap (enclose enclosing value))
      else [] := by
  rw [form]
  simp only [List.flatMap_subtype, List.unattach_attach]
  split
  · cases h : item heap value <;> rfl
  · rfl

/-- At and inside a value there is no handle, nothing that contains itself, and none of the
enclosing containers. -/
def Writable (heap : Heap) (enclosing : List ContainerId) (value : StackValue) : Prop :=
  ∀ inner, heap.Reaches value inner →
    inner.handle? = none ∧ ¬heap.ContainsItself inner ∧ ∀ id ∈ inner.container?, id ∉ enclosing

theorem writable_iff {heap : Heap} {enclosing : List ContainerId} {value : StackValue} :
    Writable heap enclosing value ↔
      value.handle? = none ∧ (∀ id ∈ value.container?, id ∉ enclosing) ∧
        ∀ child ∈ heap.children value, Writable heap (enclose enclosing value) child := by
  constructor
  · intro h
    obtain ⟨hhandle, hself, hfree⟩ := h value (heap.reaches_self value)
    refine ⟨hhandle, hfree, fun child hc inner hr => ?_⟩
    obtain ⟨hhandle', hself', hfree'⟩ := h inner (Heap.Child.reaches hc hr)
    refine ⟨hhandle', hself', fun id hid hmem => ?_⟩
    rcases List.mem_append.mp hmem with hown | hout
    · have hsame : value.container? = some id := by simpa using hown
      exact hself ⟨inner, Heap.Child.inside hc hr, by simp [hsame], by rw [hsame]; exact hid⟩
    · exact hfree' id hid hout
  · rintro ⟨hhandle, hfree, hchildren⟩ inner hr
    have hbelow : ∀ child, heap.Child value child → ∀ inner, heap.Reaches child inner →
        ∀ id ∈ inner.container?, id ∉ enclose enclosing value :=
      fun child hc inner hr => (hchildren child hc inner hr).2.2
    rcases hr.cases with rfl | ⟨child, hc, hr⟩
    · refine ⟨hhandle, ?_, hfree⟩
      rintro ⟨other, hinside, hsome, hsame⟩
      obtain ⟨child, hc, hr⟩ := hinside.exists_child
      obtain ⟨id, hid⟩ := Option.isSome_iff_exists.mp hsome
      refine hbelow child hc other hr id (by rw [hsame, hid]; rfl) ?_
      simp [enclose, hid]
    · obtain ⟨hhandle', hself', -⟩ := hchildren child hc inner hr
      refine ⟨hhandle', hself', fun id hid hmem => ?_⟩
      exact hbelow child hc inner hr id hid (List.mem_append_right _ hmem)

theorem form_of_item {heap : Heap} {enclosing : List ContainerId} {value : StackValue}
    {entry : EncodedItem} (hfree : ∀ id ∈ value.container?, id ∉ enclosing)
    (hitem : item heap value = .ok entry) :
    form heap enclosing value =
      ownBytes entry ++ (heap.children value).flatMap (form heap (enclose enclosing value)) := by
  rw [form_eq, if_pos hfree, hitem, ← children_of_item hitem]

private theorem foldlM_eq_ok_iff {maxSize : Nat} {write : Bytes → StackValue → Except EncodeError Bytes}
    {formOf : StackValue → Bytes} {P : StackValue → Prop} (children : List StackValue)
    (hwrite : ∀ child ∈ children, ∀ output out, output.length ≤ maxSize →
      (write output child = .ok out ↔
        P child ∧ out = output ++ formOf child ∧ out.length ≤ maxSize))
    (output out : Bytes) (hout : output.length ≤ maxSize) :
    children.foldlM write output = .ok out ↔
      (∀ child ∈ children, P child) ∧ out = output ++ children.flatMap formOf ∧
        out.length ≤ maxSize := by
  induction children generalizing output with
  | nil =>
    simp only [List.foldlM_nil, List.not_mem_nil, false_implies, implies_true, true_and,
      List.flatMap_nil, List.append_nil]
    constructor
    · intro h
      cases h
      exact ⟨rfl, hout⟩
    · rintro ⟨rfl, -⟩
      rfl
  | cons child children ih =>
    have hhead := hwrite child List.mem_cons_self
    have htail := ih fun c hc => hwrite c (List.mem_cons_of_mem _ hc)
    simp only [List.foldlM_cons, List.forall_mem_cons, List.flatMap_cons]
    constructor
    · intro h
      cases hone : write output child with
      | error e => rw [hone] at h; cases h
      | ok middle =>
        rw [hone] at h
        obtain ⟨hp, rfl, hfit⟩ := (hhead output middle hout).mp hone
        obtain ⟨hall, rfl, hfit'⟩ := (htail _ hfit).mp h
        exact ⟨⟨hp, hall⟩, by simp, hfit'⟩
    · rintro ⟨⟨hp, hall⟩, rfl, hfit⟩
      have hmiddle : (output ++ formOf child).length ≤ maxSize := by
        simp only [List.length_append] at hfit ⊢
        omega
      rw [(hhead output _ hout).mpr ⟨hp, rfl, hmiddle⟩]
      exact (htail _ hmiddle).mpr ⟨hall, by simp, hfit⟩

/-- Writing succeeds exactly if everything at and inside the value can be written and the output
with its whole form fits; the output is then that. -/
theorem writeNested_eq_ok_iff (heap : Heap) (maxSize : Nat) (enclosing : List ContainerId)
    (output out : Bytes) (value : StackValue) (hout : output.length ≤ maxSize) :
    writeNested heap maxSize enclosing output value = .ok out ↔
      Writable heap enclosing value ∧ out = output ++ form heap enclosing value ∧
        out.length ≤ maxSize := by
  induction hroom : heap.room enclosing using Nat.strongRecOn
    generalizing enclosing output out value with
  | ind room ih =>
  subst hroom
  rw [writeNested_eq]
  by_cases hfree : ¬∀ id ∈ value.container?, id ∉ enclosing
  · rw [if_neg hfree]
    refine iff_of_false (by simp) fun h => hfree (writable_iff.mp h.1).2.1
  have hfree := Decidable.not_not.mp hfree
  rw [if_pos hfree]
  cases hitem : item heap value with
  | error e =>
    refine iff_of_false (by simp) fun h => ?_
    obtain ⟨entry, hentry⟩ := item_of_handle heap (writable_iff.mp h.1).1
    rw [hitem] at hentry
    cases hentry
  | ok entry =>
    have hform := form_of_item hfree hitem
    have hchildren := children_of_item hitem
    have hwritable : Writable heap enclosing value ↔
        ∀ child ∈ entry.children, Writable heap (enclose enclosing value) child := by
      rw [writable_iff, hchildren]
      exact ⟨fun h => h.2.2, fun h => ⟨handle_of_item hitem, hfree, h⟩⟩
    by_cases hlarge : maxSize < (output ++ ownBytes entry).length
    · dsimp only
      rw [if_pos hlarge]
      refine iff_of_false (by simp) ?_
      rintro ⟨-, rfl, hfit⟩
      rw [hform] at hfit
      simp only [List.length_append] at hlarge hfit
      omega
    · dsimp only
      rw [if_neg hlarge, foldlM_eq_ok_iff entry.children
        (fun child hc output out hout =>
          ih _ (room_enclose_lt hfree hitem hc) _ output out child hout rfl)
        _ out (by omega), hwritable, hform, hchildren, List.append_assoc]

private theorem foldlM_eq_error {write : Bytes → StackValue → Except EncodeError Bytes}
    (children : List StackValue) (output : Bytes) {e : EncodeError}
    (h : children.foldlM write output = .error e) :
    ∃ child ∈ children, ∃ output, write output child = .error e := by
  induction children generalizing output with
  | nil => cases h
  | cons child children ih =>
    rw [List.foldlM_cons] at h
    cases hone : write output child with
    | error e' =>
      rw [hone] at h
      cases h
      exact ⟨child, List.mem_cons_self, output, hone⟩
    | ok middle =>
      rw [hone] at h
      obtain ⟨c, hc, output, herr⟩ := ih middle h
      exact ⟨c, List.mem_cons_of_mem _ hc, output, herr⟩

/-- A cycle is only reported where one of the enclosing containers is met again, or a container
that is met again inside itself. -/
theorem cyclic_of_writeNested (heap : Heap) (maxSize : Nat) (enclosing : List ContainerId)
    (output : Bytes) (value : StackValue)
    (h : writeNested heap maxSize enclosing output value = .error .cyclicStructure) :
    ∃ inner, heap.Reaches value inner ∧
      (heap.ContainsItself inner ∨ ∃ id ∈ inner.container?, id ∈ enclosing) := by
  induction hroom : heap.room enclosing using Nat.strongRecOn
    generalizing enclosing output value with
  | ind room ih =>
  subst hroom
  rw [writeNested_eq] at h
  split at h
  next hfree =>
    cases hitem : item heap value with
    | error e =>
      rw [hitem] at h
      cases h
      cases item_error hitem
    | ok entry =>
      rw [hitem] at h
      dsimp only at h
      split at h
      · cases h
      obtain ⟨child, hc, middle, herr⟩ := foldlM_eq_error _ _ h
      obtain ⟨inner, hr, hwhy⟩ := ih _ (room_enclose_lt hfree hitem hc) _ middle child herr rfl
      rw [children_of_item hitem] at hc
      rcases hwhy with hself | ⟨id, hid, hmem⟩
      · exact ⟨inner, Heap.Child.reaches hc hr, .inl hself⟩
      rcases List.mem_append.mp hmem with hown | hout
      · -- the value itself is what was met again
        have hsame : value.container? = some id := by simpa using hown
        refine ⟨value, heap.reaches_self value, .inl ⟨inner, Heap.Child.inside hc hr, ?_, ?_⟩⟩
        · simp [hsame]
        · rw [hsame]; exact hid
      · exact ⟨inner, Heap.Child.reaches hc hr, .inr ⟨id, hid, hout⟩⟩
  next hmet =>
    obtain ⟨id, hid, hmem⟩ : ∃ id, id ∈ value.container? ∧ id ∈ enclosing := by
      simpa only [Classical.not_forall, Decidable.not_not, exists_prop] using hmet
    exact ⟨value, heap.reaches_self value, .inr ⟨id, hid, hmem⟩⟩

end Encoder

end ContractHost
