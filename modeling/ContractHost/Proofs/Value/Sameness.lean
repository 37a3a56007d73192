import Mathlib.Data.List.Forall2
import ContractHost.Proofs.Value.Spelling

/-!
# Values of one spelling

A spelled value contains no cycle, its tokens are those of everything it reaches, and two values
are structurally equal if the same tokens spell them. The depth bound of structural equality is no
restriction: below a container there is less room for others.
-/

namespace ContractHost

namespace Heap

namespace Spells

variable {heap : Heap} {value : StackValue} {values : List StackValue} {tokens : List ValueToken}

theorem exists_children (h : heap.Spells [value] tokens) :
    ∃ token below, tokens = token :: below ∧ heap.token? value = some token ∧
      heap.Spells (heap.children value) below := by
  cases h with
  | cons htoken hrest =>
    rw [List.append_nil] at hrest
    exact ⟨_, _, rfl, htoken, hrest⟩

theorem of_reaches (h : heap.Spells [value] tokens) {inner : StackValue}
    (hr : heap.Reaches value inner) :
    ∃ own, heap.Spells [inner] own ∧ own.length ≤ tokens.length := by
  induction hr with
  | refl => exact ⟨tokens, h, Nat.le_refl _⟩
  | tail _ hc ih =>
    obtain ⟨own, hown, hle⟩ := ih
    obtain ⟨token, below, rfl, -, hbelow⟩ := hown.exists_children
    obtain ⟨child, hchild, hle'⟩ := hbelow.of_mem hc
    refine ⟨child, hchild, ?_⟩
    rw [List.length_cons] at hle
    omega

theorem of_inside (h : heap.Spells [value] tokens) {inner : StackValue}
    (hi : heap.Inside value inner) :
    ∃ own, heap.Spells [inner] own ∧ own.length < tokens.length := by
  obtain ⟨child, hc, hr⟩ := hi.exists_child
  obtain ⟨token, below, rfl, -, hbelow⟩ := h.exists_children
  obtain ⟨ownChild, hchild, hle⟩ := hbelow.of_mem hc
  obtain ⟨own, hown, hle'⟩ := hchild.of_reaches hr
  exact ⟨own, hown, by rw [List.length_cons]; omega⟩

theorem not_containsItself (h : heap.Spells [value] tokens) : ¬heap.ContainsItself value := by
  rintro ⟨inner, hinside, hsome, hsame⟩
  obtain ⟨own, hown, hlt⟩ := h.of_inside hinside
  obtain ⟨token, below, rfl, -, hbelow⟩ := h.exists_children
  obtain ⟨token', below', rfl, -, hbelow'⟩ := hown.exists_children
  rw [← children_eq_of_container hsome hsame.symm] at hbelow'
  rw [hbelow.unique hbelow'] at hlt
  exact Nat.lt_irrefl _ hlt

theorem writable (h : heap.Spells [value] tokens) : Encoder.Writable heap [] value := by
  intro inner hr
  obtain ⟨own, hown, -⟩ := h.of_reaches hr
  obtain ⟨token, below, rfl, htoken, -⟩ := hown.exists_children
  exact ⟨handle_of_token htoken, hown.not_containsItself, fun _ _ => List.not_mem_nil⟩

theorem forall_token_iff {P : ValueToken → Prop} (h : heap.Spells values tokens) :
    (∀ token ∈ tokens, P token) ↔
      ∀ value ∈ values, ∀ inner, heap.Reaches value inner →
        ∀ token ∈ heap.token? inner, P token := by
  induction h with
  | nil => simp
  | @cons value rest token tokens htoken _ ih =>
    rw [List.forall_mem_cons, ih, List.forall_mem_cons]
    constructor
    · rintro ⟨hown, hbelow⟩
      refine ⟨fun inner hr t ht => ?_, fun v hv => hbelow v (List.mem_append_right _ hv)⟩
      rcases hr.cases with rfl | ⟨child, hc, hr⟩
      · rw [htoken] at ht
        exact Option.some.inj ht ▸ hown
      · exact hbelow child (List.mem_append_left _ hc) inner hr t ht
    · rintro ⟨hvalue, hrest⟩
      refine ⟨hvalue value (heap.reaches_self value) token htoken, fun v hv inner hr => ?_⟩
      rcases List.mem_append.mp hv with hc | hv
      · exact hvalue inner (Child.reaches hc hr)
      · exact hrest v hv inner hr

theorem split {later : Heap} {front back front' back' : List StackValue}
    (h : heap.Spells (front ++ back) tokens) (h' : later.Spells (front' ++ back') tokens)
    (hlength : front.length = front'.length) :
    ∃ head tail, tokens = head ++ tail ∧ heap.Spells front head ∧ later.Spells front' head ∧
      heap.Spells back tail ∧ later.Spells back' tail := by
  generalize hall : front ++ back = all at h
  induction h generalizing front front' with
  | nil =>
    obtain ⟨rfl, rfl⟩ := List.append_eq_nil_iff.mp hall
    obtain rfl := List.length_eq_zero_iff.mp hlength.symm
    exact ⟨[], [], rfl, .nil, .nil, .nil, h'⟩
  | @cons value rest token tokens htoken hrest ih =>
    cases front with
    | nil =>
      obtain rfl := List.length_eq_zero_iff.mp hlength.symm
      rw [List.nil_append] at hall
      exact ⟨[], token :: tokens, rfl, .nil, .nil, hall ▸ .cons htoken hrest, h'⟩
    | cons v front =>
      obtain ⟨rfl, rfl⟩ := List.cons.inj hall
      cases front' with
      | nil => cases hlength
      | cons v' front' =>
        cases h' with
        | cons htoken' hrest' =>
          have hcount : (heap.children v).length = (later.children v').length := by
            rw [← childCount_of_token htoken, ← childCount_of_token htoken']
          have hbelow : (heap.children v ++ front).length = (later.children v' ++ front').length := by
            simp only [List.length_cons, List.length_append] at hlength ⊢
            omega
          have hassoc : (later.children v' ++ front') ++ back' =
              later.children v' ++ (front' ++ back') := List.append_assoc _ _ _
          obtain ⟨head, tail, rfl, hf, hf', hb, hb'⟩ :=
            ih (hassoc ▸ hrest') hbelow (List.append_assoc _ front back)
          exact ⟨token :: head, tail, rfl, .cons htoken hf, .cons htoken' hf', hb, hb'⟩

theorem forall₂ {later : Heap} {others : List StackValue} (h : heap.Spells values tokens)
    (h' : later.Spells others tokens) :
    List.Forall₂ (fun value other =>
      ∃ own, heap.Spells [value] own ∧ later.Spells [other] own) values others := by
  induction values generalizing others tokens with
  | nil =>
    cases h
    cases h'
    exact .nil
  | cons value values ih =>
    cases others with
    | nil => cases h'; cases h
    | cons other others =>
      rw [← List.singleton_append] at h h'
      obtain ⟨own, rest, rfl, hone, hone', hrest, hrest'⟩ := h.split h' rfl
      exact .cons ⟨own, hone, hone'⟩ (ih hrest hrest')

end Spells

private theorem equalLists_of_forall₂ {heap : Heap} {depth : Nat} {left right : List StackValue}
    (h : List.Forall₂ (fun a b => heap.equalWithin depth a b = true) left right) :
    equalWithin.equalLists heap depth left right = true := by
  rw [equalWithin.equalLists, h.length_eq, beq_self_eq_true, Bool.true_and, List.all_eq_true]
  exact fun pair hpair => List.forall₂_zip h hpair

private theorem equalWithin_of_spells {heap : Heap} {left right : StackValue}
    {tokens : List ValueToken} (enclosing : List ContainerId) (depth : Nat)
    (hleft : heap.Spells [left] tokens) (hright : heap.Spells [right] tokens)
    (hwritable : Encoder.Writable heap enclosing left) (hroom : heap.room enclosing < depth) :
    heap.equalWithin depth left right = true := by
  induction depth generalizing left right tokens enclosing with
  | zero => cases hroom
  | succ depth ih =>
    obtain ⟨token, below, rfl, htoken, hbelow⟩ := hleft.exists_children
    obtain ⟨token', _, hsame, htoken', hbelow'⟩ := hright.exists_children
    obtain ⟨rfl, rfl⟩ := List.cons.inj hsame
    have hinside := (Encoder.writable_iff.mp hwritable).2.2
    have hfree := (Encoder.writable_iff.mp hwritable).2.1
    have hchildren : left.container?.isSome →
        equalWithin.equalLists heap depth (heap.children left) (heap.children right) = true := by
      intro hsome
      obtain ⟨id, hid⟩ := Option.isSome_iff_exists.mp hsome
      have hless : heap.room (Encoder.enclose enclosing left) < heap.room enclosing := by
        rw [Encoder.enclose, hid]
        exact room_cons_lt (container_mem_of_token htoken id hid) (hfree id hid)
      have hpairs := hbelow.forall₂ hbelow'
      have hboth := (List.forall₂_and_left _ _).mpr ⟨hinside, hpairs⟩
      apply equalLists_of_forall₂
      refine hboth.imp fun child other h => ?_
      obtain ⟨hwritable', own, hown, hown'⟩ := h
      exact ih (Encoder.enclose enclosing left) hown hown' hwritable' (by omega)
    -- one token stands for one kind of value only
    cases left with
    | byteString | boolean | integer =>
      cases htoken
      cases right <;> simp_all [token?, equalWithin, StackValue.keyEq]
    | handle => cases htoken
    | array ref | struct ref | map ref =>
      have hbelow := hchildren rfl
      obtain ⟨_, -, rfl⟩ := Option.map_eq_some_iff.mp htoken
      cases right <;> simp_all [token?, equalWithin, children]

/-- Values that the same tokens spell are structurally equal. -/
theorem equal_of_spells {heap : Heap} {left right : StackValue} {tokens : List ValueToken}
    (hleft : heap.Spells [left] tokens) (hright : heap.Spells [right] tokens) :
    heap.equal left right = true := by
  apply equalWithin_of_spells [] _ hleft hright hleft.writable
  rw [room_nil]
  omega

end Heap

end ContractHost
