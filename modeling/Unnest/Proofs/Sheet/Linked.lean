import Mathlib.Data.List.Perm.Subperm
import Unnest.Sheet.Traverse

/-!
# Sheets with the links of a tree

`Below s top id` says that child links lead from `top` to `id`. A sheet is
`Linked` if parent and child links agree as far as they can be reached from the
root. What is detached may be damaged: it only has to be listed by the parent
that it names.

That parent links end at the root, that they are what `isAttached` follows, and
that a node is attached exactly if it is below the root, all follow from
`Linked`.
-/

namespace Unnest.Sheet

/-- Child links lead from `top` to the node. -/
inductive Below (s : Sheet) (top : NodeId) : NodeId → Prop
  | refl : Below s top top
  | child {id child : NodeId} : Below s top id → child ∈ s.children id → Below s top child

/-- Following parent links from `id` gives the ids of the list and ends. -/
inductive Chain (s : Sheet) : NodeId → List NodeId → Prop
  | nil {id : NodeId} : s.parent? id = none → Chain s id []
  | cons {id parent : NodeId} {rest : List NodeId} :
      s.parent? id = some parent → Chain s parent rest → Chain s id (parent :: rest)

/-- The children of `id` name it as their parent, and it may have them. -/
structure AgreesAt (s : Sheet) (id : NodeId) : Prop where
  nodup : (s.children id).Nodup
  parent?_child {child : NodeId} : child ∈ s.children id → s.parent? child = some id
  isContainer {content : Content} :
    s.content? id = some content → s.children id ≠ [] → content.isContainer = true

/-- The links that can be reached from the root are those of a tree. -/
structure Linked (s : Sheet) : Prop where
  content?_root : s.content? rootId = some .root
  parent?_root : s.parent? rootId = none
  agreesAt {id : NodeId} : s.Below rootId id → s.AgreesAt id
  mem_children {id parent : NodeId} : s.parent? id = some parent → id ∈ s.children parent

/-! ## Slots -/

theorem rootId_ne_size (s : Sheet) : rootId ≠ s.size :=
  fun heq => Nat.lt_irrefl _ (heq ▸ s.size_pos)

theorem content?_eq_none_iff {s : Sheet} {id : NodeId} :
    s.content? id = none ↔ s.size ≤ id := by
  rw [← get?_eq_none_iff]
  simp [content?]

theorem lt_size_of_content? {s : Sheet} {id : NodeId} {content : Content}
    (h : s.content? id = some content) : id < s.size := by
  by_contra hge
  rw [content?_eq_none_iff.mpr (Nat.le_of_not_lt hge)] at h
  cases h

theorem exists_content? {s : Sheet} {id : NodeId} (h : id < s.size) :
    ∃ content, s.content? id = some content := by
  cases hcontent : s.content? id with
  | none => exact absurd (content?_eq_none_iff.mp hcontent) (Nat.not_le.mpr h)
  | some content => exact ⟨content, rfl⟩

theorem lt_size_of_parent? {s : Sheet} {id parent : NodeId}
    (h : s.parent? id = some parent) : id < s.size := by
  obtain ⟨node, hnode, -⟩ := Option.bind_eq_some_iff.mp h
  exact lt_size_of_get? hnode

theorem lt_size_of_mem_children {s : Sheet} {id child : NodeId}
    (h : child ∈ s.children id) : id < s.size := by
  by_contra hge
  rw [children, get?_eq_none_iff.mpr (Nat.le_of_not_lt hge)] at h
  simp at h

theorem parent?_eq_none_of_size_le {s : Sheet} {id : NodeId} (h : s.size ≤ id) :
    s.parent? id = none := by
  simp [parent?, get?_eq_none_iff.mpr h]

theorem children_eq_nil_of_size_le {s : Sheet} {id : NodeId} (h : s.size ≤ id) :
    s.children id = [] := by
  simp [children, get?_eq_none_iff.mpr h]

theorem get?_eq_of_views {s t : Sheet} {id : NodeId} (hcontent : s.content? id = t.content? id)
    (hparent : s.parent? id = t.parent? id) (hchildren : s.children id = t.children id) :
    s.get? id = t.get? id := by
  simp only [content?, parent?, children] at hcontent hparent hchildren
  cases hs : s.get? id with
  | none =>
      cases ht : t.get? id with
      | none => rfl
      | some node' => simp [hs, ht] at hcontent
  | some node =>
      cases ht : t.get? id with
      | none => simp [hs, ht] at hcontent
      | some node' =>
          obtain ⟨content, parent, children⟩ := node
          obtain ⟨content', parent', children'⟩ := node'
          simp_all

/-! ## Below -/

theorem Below.trans {s : Sheet} {top mid id : NodeId} (h : s.Below top mid)
    (h' : s.Below mid id) : s.Below top id := by
  induction h' with
  | refl => exact h
  | child _ hmem ih => exact .child ih hmem

theorem Below.of_child {s : Sheet} {top child id : NodeId} (hmem : child ∈ s.children top)
    (h : s.Below child id) : s.Below top id :=
  Below.trans (.child .refl hmem) h

theorem Below.of_children_eq {s t : Sheet} (heq : ∀ id, s.children id = t.children id)
    {top id : NodeId} (h : s.Below top id) : t.Below top id := by
  induction h with
  | refl => exact .refl
  | child _ hmem ih => exact .child ih (heq _ ▸ hmem)

theorem Below.cases_top {s : Sheet} {top id : NodeId} (h : s.Below top id) :
    id = top ∨ ∃ child ∈ s.children top, s.Below child id := by
  induction h with
  | refl => exact .inl rfl
  | child _ hmem ih =>
      right
      rcases ih with rfl | ⟨first, hfirst, hbelow⟩
      · exact ⟨_, hmem, .refl⟩
      · exact ⟨first, hfirst, .child hbelow hmem⟩

/-! ## Chains -/

theorem Chain.unique {s : Sheet} {id : NodeId} {chain chain' : List NodeId}
    (h : s.Chain id chain) (h' : s.Chain id chain') : chain = chain' := by
  induction h generalizing chain' with
  | nil hnone =>
      cases h' with
      | nil => rfl
      | cons hsome => simp [hnone] at hsome
  | cons hsome _ ih =>
      cases h' with
      | nil hnone => simp [hnone] at hsome
      | cons hsome' hrest =>
          rw [hsome] at hsome'
          cases hsome'
          rw [ih hrest]

theorem Chain.exists_of_parent? {s : Sheet} {id parent : NodeId} {chain : List NodeId}
    (h : s.Chain id chain) (hparent : s.parent? id = some parent) :
    ∃ rest, chain = parent :: rest ∧ s.Chain parent rest := by
  cases h with
  | nil hnone => simp [hnone] at hparent
  | cons hsome hrest =>
      rw [hparent] at hsome
      cases hsome
      exact ⟨_, rfl, hrest⟩

/-- Where each listed node names its lister, the way up goes back the way down. -/
theorem Chain.mem_of_below {s : Sheet} {top id : NodeId} {chain : List NodeId}
    (h : s.Chain id chain) (hbelow : s.Below top id)
    (hlisted : ∀ {parent child}, s.Below top parent → child ∈ s.children parent →
      s.parent? child = some parent) : top ∈ id :: chain := by
  induction hbelow generalizing chain with
  | refl => exact List.mem_cons_self
  | child hmid hmem ih =>
      obtain ⟨rest, rfl, hrest⟩ := h.exists_of_parent? (hlisted hmid hmem)
      exact List.mem_cons_of_mem _ (ih hrest)

/-- Where each node is listed by the one it names, a way up is also a way down. -/
theorem Chain.below_of_mem {s : Sheet} {top id : NodeId} {chain : List NodeId}
    (h : s.Chain id chain)
    (hlisted : ∀ {child parent}, s.parent? child = some parent → child ∈ s.children parent)
    (hmem : top ∈ id :: chain) : s.Below top id := by
  induction h with
  | nil =>
      rw [List.mem_singleton.mp hmem]
      exact .refl
  | cons hparent _ ih =>
      rcases List.mem_cons.mp hmem with rfl | hmem
      · exact .refl
      · exact .child (ih hmem) (hlisted hparent)

theorem Chain.exists_of_mem {s : Sheet} {id ancestor : NodeId} {chain : List NodeId}
    (h : s.Chain id chain) (hmem : ancestor ∈ chain) :
    ∃ rest, s.Chain ancestor rest ∧ rest.length < chain.length := by
  induction h with
  | nil => simp at hmem
  | cons _ hrest ih =>
      rcases List.mem_cons.mp hmem with rfl | hmem
      · exact ⟨_, hrest, by simp⟩
      · obtain ⟨rest, hchain, hlt⟩ := ih hmem
        exact ⟨rest, hchain, by simp only [List.length_cons]; omega⟩

/-- A chain stays as long as the links that it follows do. -/
theorem Chain.congr {s t : Sheet} {id : NodeId} {chain : List NodeId} (h : s.Chain id chain)
    (heq : ∀ other ∈ id :: chain, t.parent? other = s.parent? other) : t.Chain id chain := by
  induction h with
  | nil hnone => exact .nil (by rw [heq _ List.mem_cons_self, hnone])
  | cons hsome _ ih =>
      refine .cons (by rw [heq _ List.mem_cons_self, hsome]) (ih ?_)
      exact fun other hother => heq other (List.mem_cons_of_mem _ hother)

/-- A chain still ends if wherever it leaves its links it goes over to another
chain that ends. -/
theorem Chain.exists_of_step {s t : Sheet} {id : NodeId} {chain : List NodeId}
    (h : s.Chain id chain)
    (hstep : ∀ id, t.parent? id = s.parent? id ∨ ∃ chain, t.Chain id chain) :
    ∃ chain, t.Chain id chain := by
  induction h with
  | @nil id hnone =>
      rcases hstep id with heq | hchain
      · exact ⟨[], .nil (heq.trans hnone)⟩
      · exact hchain
  | @cons id parent rest hsome _ ih =>
      rcases hstep id with heq | hchain
      · obtain ⟨chain, hchain⟩ := ih
        exact ⟨parent :: chain, .cons (heq.trans hsome) hchain⟩
      · exact hchain

theorem Chain.not_mem {s : Sheet} {id : NodeId} {chain : List NodeId}
    (h : s.Chain id chain) : id ∉ chain := by
  intro hmem
  obtain ⟨rest, hrest, hlt⟩ := h.exists_of_mem hmem
  rw [h.unique hrest] at hlt
  exact Nat.lt_irrefl _ hlt

theorem Chain.nodup {s : Sheet} {id : NodeId} {chain : List NodeId}
    (h : s.Chain id chain) : (id :: chain).Nodup := by
  induction h with
  | nil => simp
  | cons hsome hrest ih =>
      exact List.nodup_cons.mpr ⟨(Chain.cons hsome hrest).not_mem, ih⟩

theorem Chain.ancestorsWithin_eq {s : Sheet} {id : NodeId} {chain : List NodeId}
    (h : s.Chain id chain) {steps : Nat} (hsteps : chain.length ≤ steps) :
    s.ancestorsWithin steps id = chain := by
  induction h generalizing steps with
  | nil hnone => cases steps <;> simp [ancestorsWithin, hnone]
  | cons hsome _ ih =>
      cases steps with
      | zero => simp at hsteps
      | succ steps =>
          rw [ancestorsWithin, hsome]
          exact congrArg (_ :: ·) (ih (by simpa using hsteps))

theorem Chain.length_lt_size {s : Sheet} {id : NodeId} {chain : List NodeId}
    (h : s.Chain id chain) (hslots : ∀ other ∈ id :: chain, other < s.size) :
    chain.length < s.size := by
  have hsub : id :: chain ⊆ s.ids := fun other hmem => mem_ids.mpr (hslots other hmem)
  have := (List.subperm_of_subset h.nodup hsub).length_le
  simp only [List.length_cons, length_ids] at this
  omega

/-! ## What a linked sheet gives -/

namespace Linked

variable {s : Sheet} (h : s.Linked)
include h

theorem ne_root_of_isRule {id : NodeId} (hrule : s.isRule id = true) : id ≠ rootId := by
  rintro rfl
  simp [isRule, h.content?_root, Content.isRule] at hrule

theorem lt_size {id : NodeId} (hid : s.Below rootId id) : id < s.size := by
  cases hid with
  | refl => exact lt_size_of_content? h.content?_root
  | child hbelow hmem => exact lt_size_of_parent? ((h.agreesAt hbelow).parent?_child hmem)

theorem below_of_parent? {id parent : NodeId} (hparent : s.parent? id = some parent)
    (hbelow : s.Below rootId parent) : s.Below rootId id :=
  .child hbelow (h.mem_children hparent)

theorem exists_parent? {id : NodeId} (hid : s.Below rootId id) (hne : id ≠ rootId) :
    ∃ parent, s.parent? id = some parent ∧ s.Below rootId parent := by
  cases hid with
  | refl => exact absurd rfl hne
  | child hbelow hmem => exact ⟨_, (h.agreesAt hbelow).parent?_child hmem, hbelow⟩

theorem below_parent {id parent : NodeId} (hid : s.Below rootId id)
    (hparent : s.parent? id = some parent) : s.Below rootId parent := by
  have hne : id ≠ rootId := by
    rintro rfl
    simp [h.parent?_root] at hparent
  obtain ⟨parent', hparent', hbelow⟩ := h.exists_parent? hid hne
  rw [hparent] at hparent'
  cases hparent'
  exact hbelow

theorem mem_children_iff {id parent : NodeId} (hparent : s.Below rootId parent) :
    id ∈ s.children parent ↔ s.parent? id = some parent :=
  ⟨(h.agreesAt hparent).parent?_child, h.mem_children⟩

theorem exists_chain {id : NodeId} (hid : s.Below rootId id) :
    ∃ chain, s.Chain id chain ∧ ∀ other ∈ chain, s.Below rootId other := by
  induction hid with
  | refl => exact ⟨[], .nil h.parent?_root, by simp⟩
  | child hbelow hmem ih =>
      obtain ⟨chain, hchain, hall⟩ := ih
      refine ⟨_ :: chain, .cons ((h.agreesAt hbelow).parent?_child hmem) hchain, ?_⟩
      intro other hother
      rcases List.mem_cons.mp hother with rfl | hother
      · exact hbelow
      · exact hall other hother

theorem not_mem_children_self {id : NodeId} (hid : s.Below rootId id) :
    id ∉ s.children id := by
  intro hmem
  obtain ⟨chain, hchain, -⟩ := h.exists_chain hid
  obtain ⟨rest, rfl, -⟩ := hchain.exists_of_parent? ((h.agreesAt hid).parent?_child hmem)
  exact hchain.not_mem List.mem_cons_self

/-- The bound on `ancestors` is never met by an attached node. -/
theorem chain_ancestors {id : NodeId} (hid : s.Below rootId id) :
    s.Chain id (s.ancestors id) ∧ (s.ancestors id).length < s.size := by
  obtain ⟨chain, hchain, hall⟩ := h.exists_chain hid
  have hlt : chain.length < s.size := by
    apply hchain.length_lt_size
    intro other hother
    rcases List.mem_cons.mp hother with rfl | hother
    · exact h.lt_size hid
    · exact h.lt_size (hall other hother)
  rw [ancestors, hchain.ancestorsWithin_eq (Nat.le_of_lt hlt)]
  exact ⟨hchain, hlt⟩

theorem ancestors_eq {id : NodeId} {chain : List NodeId} (hid : s.Below rootId id)
    (hchain : s.Chain id chain) : s.ancestors id = chain :=
  (h.chain_ancestors hid).1.unique hchain

theorem below_of_mem_chain {id ancestor : NodeId} {chain : List NodeId}
    (hid : s.Below rootId id) (hchain : s.Chain id chain) (hmem : ancestor ∈ chain) :
    s.Below rootId ancestor ∧ s.Below ancestor id := by
  obtain ⟨chain', hchain', hall⟩ := h.exists_chain hid
  obtain rfl := hchain.unique hchain'
  exact ⟨hall ancestor hmem, hchain.below_of_mem h.mem_children (List.mem_cons_of_mem _ hmem)⟩

theorem getLast?_chain {id : NodeId} {chain : List NodeId} (hid : s.Below rootId id)
    (hne : id ≠ rootId) (hchain : s.Chain id chain) : chain.getLast? = some rootId := by
  induction hchain with
  | nil hnone =>
      obtain ⟨parent, hparent, -⟩ := h.exists_parent? hid hne
      simp [hnone] at hparent
  | @cons id parent rest hparent hrest ih =>
      by_cases hroot : parent = rootId
      · subst hroot
        have hnil : rest = [] := hrest.unique (.nil h.parent?_root)
        simp [hnil]
      · rw [List.getLast?_cons, ih (h.below_parent hid hparent) hroot]
        rfl

theorem below_of_getLast? {id : NodeId} {steps : Nat}
    (hlast : (s.ancestorsWithin steps id).getLast? = some rootId) : s.Below rootId id := by
  induction steps generalizing id with
  | zero => simp [ancestorsWithin] at hlast
  | succ steps ih =>
      cases hparent : s.parent? id with
      | none => simp [ancestorsWithin, hparent] at hlast
      | some parent =>
          apply h.below_of_parent? hparent
          rw [ancestorsWithin, hparent] at hlast
          simp only [List.getLast?_cons, Option.some.injEq] at hlast
          cases hrest : (s.ancestorsWithin steps parent).getLast? with
          | none =>
              rw [hrest] at hlast
              have hroot : parent = rootId := hlast
              subst hroot
              exact .refl
          | some last =>
              rw [hrest] at hlast
              have hroot : last = rootId := hlast
              subst hroot
              exact ih hrest

theorem isAttached_iff {id : NodeId} : s.isAttached id = true ↔ s.Below rootId id := by
  simp only [isAttached, Bool.or_eq_true, beq_iff_eq]
  constructor
  · rintro (rfl | hlast)
    · exact .refl
    · exact h.below_of_getLast? hlast
  · intro hid
    by_cases hroot : id = rootId
    · exact .inl hroot
    · exact .inr (h.getLast?_chain hid hroot (h.chain_ancestors hid).1)

end Linked

end Unnest.Sheet
