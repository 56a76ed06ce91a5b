import Unnest.Proofs.Sheet.Order
import Unnest.Sheet.Print

/-!
# Sheets as forests

The part of a sheet that is attached is a `Forest` under its root. `Holds` says
so slot by slot, and what a walk, a printer or a builder does to the sheet can
be said by recursion on the forest. A linked sheet holds exactly one forest.
-/

namespace Unnest

/-- A row of siblings: its first node, the row below this and the row beside it. -/
inductive Forest where
  | nil
  | node (id : NodeId) (content : Content) (below beside : Forest)
deriving DecidableEq

namespace Forest

def roots : Forest → List NodeId
  | nil => []
  | node id _ _ beside => id :: beside.roots

/-- All ids, parents before children and siblings in order. -/
def ids : Forest → List NodeId
  | nil => []
  | node id _ below beside => id :: (below.ids ++ beside.ids)

def size : Forest → Nat
  | nil => 0
  | node _ _ below beside => below.size + 1 + beside.size

def number (first : NodeId) : Forest → Forest
  | nil => nil
  | node _ content below beside =>
      node first content (below.number (first + 1)) (beside.number (first + 1 + below.size))

def mapIds (f : NodeId → NodeId) : Forest → Forest
  | nil => nil
  | node id content below beside => node (f id) content (below.mapIds f) (beside.mapIds f)

/-- Whether the slots of `s` are those of the forest, with the row itself under
`parent`. -/
def Mirrors (s : Sheet) (parent : NodeId) : Forest → Prop
  | nil => True
  | node id content below beside =>
      s.get? id = some ⟨content, some parent, below.roots⟩ ∧
        below.Mirrors s id ∧ beside.Mirrors s parent

/-- Whether each node can be printed: only a block has nodes in it, and no node
says that it is the root. -/
def Formed : Forest → Prop
  | nil => True
  | node _ content below beside =>
      content ≠ .root ∧ (content.opensBlock false = false → below = nil) ∧
        below.Formed ∧ beside.Formed

def All (P : NodeId → Content → Prop) : Forest → Prop
  | nil => True
  | node id content below beside => P id content ∧ below.All P ∧ beside.All P

instance decidableAll {P : NodeId → Content → Prop} [∀ id content, Decidable (P id content)] :
    (forest : Forest) → Decidable (forest.All P)
  | nil => .isTrue trivial
  | node _ _ below beside =>
      have := below.decidableAll (P := P)
      have := beside.decidableAll (P := P)
      inferInstanceAs (Decidable (_ ∧ _))

/-! ## Numbering -/

@[simp] theorem length_ids (forest : Forest) : forest.ids.length = forest.size := by
  induction forest with
  | nil => rfl
  | node id content below beside ihBelow ihBeside =>
      simp only [ids, size, List.length_cons, List.length_append, ihBelow, ihBeside]
      omega

@[simp] theorem size_number (first : NodeId) (forest : Forest) :
    (forest.number first).size = forest.size := by
  induction forest generalizing first with
  | nil => rfl
  | node id content below beside ihBelow ihBeside => simp [number, size, ihBelow, ihBeside]

theorem ids_number (first : NodeId) (forest : Forest) :
    (forest.number first).ids = List.range' first forest.size := by
  induction forest generalizing first with
  | nil => rfl
  | node id content below beside ihBelow ihBeside =>
      rw [number, ids, ihBelow, ihBeside, size, ← List.range'_append_1, List.range'_succ,
        Nat.add_comm below.size 1, Nat.add_assoc first 1, List.cons_append]

theorem number_number (first first' : NodeId) (forest : Forest) :
    (forest.number first').number first = forest.number first := by
  induction forest generalizing first first' with
  | nil => rfl
  | node id content below beside ihBelow ihBeside => simp [number, ihBelow, ihBeside]

theorem Formed.number {forest : Forest} (h : forest.Formed) (first : NodeId) :
    (forest.number first).Formed := by
  induction forest generalizing first with
  | nil => trivial
  | node id content below beside ihBelow ihBeside =>
      obtain ⟨hroot, hleaf, hbelow, hbeside⟩ := h
      refine ⟨hroot, ?_, ihBelow hbelow _, ihBeside hbeside _⟩
      intro hopens
      rw [hleaf hopens]
      rfl

theorem roots_subset_ids (forest : Forest) : forest.roots ⊆ forest.ids := by
  induction forest with
  | nil => exact List.Subset.refl _
  | node id content below beside _ ihBeside =>
      intro other hother
      rcases List.mem_cons.mp hother with rfl | hother
      · exact List.mem_cons_self
      · exact List.mem_cons_of_mem _ (List.mem_append_right _ (ihBeside hother))

@[simp] theorem roots_mapIds (f : NodeId → NodeId) (forest : Forest) :
    (forest.mapIds f).roots = forest.roots.map f := by
  induction forest with
  | nil => rfl
  | node id content below beside _ ihBeside => simp [mapIds, roots, ihBeside]

theorem mapIds_congr {f g : NodeId → NodeId} {forest : Forest}
    (h : ∀ id ∈ forest.ids, f id = g id) : forest.mapIds f = forest.mapIds g := by
  induction forest with
  | nil => rfl
  | node id content below beside ihBelow ihBeside =>
      simp only [ids, List.mem_cons, List.mem_append] at h
      rw [mapIds, mapIds, h id (.inl rfl), ihBelow fun id hid => h id (.inr (.inl hid)),
        ihBeside fun id hid => h id (.inr (.inr hid))]

theorem mapIds_number (first shift : NodeId) (forest : Forest) :
    (forest.number first).mapIds (· + shift) = forest.number (first + shift) := by
  induction forest generalizing first with
  | nil => rfl
  | node id content below beside ihBelow ihBeside =>
      rw [number, mapIds, ihBelow, ihBeside, number, Nat.add_right_comm (first + 1) _ shift,
        Nat.add_right_comm first 1 shift]

theorem number_eq_mapIds {forest : Forest} (h : forest.ids.Nodup) (first : NodeId) :
    forest.number first = forest.mapIds fun id => first + forest.ids.idxOf id := by
  induction forest generalizing first with
  | nil => rfl
  | node id content below beside ihBelow ihBeside =>
      rw [ids, List.nodup_cons, List.nodup_append, List.mem_append] at h
      obtain ⟨hid, hbelow, hbeside, hdisjoint⟩ := h
      rw [number, mapIds, ihBelow hbelow, ihBeside hbeside, ids]
      congr 1
      · simp
      · apply mapIds_congr
        intro other hother
        have hne : id ≠ other := fun heq => hid (.inl (heq ▸ hother))
        rw [List.idxOf_cons_ne _ hne, List.idxOf_append_of_mem hother, Nat.add_assoc first 1,
          Nat.add_comm 1]
      · apply mapIds_congr
        intro other hother
        have hne : id ≠ other := fun heq => hid (.inr (heq ▸ hother))
        have hbelow : other ∉ below.ids := fun hmem => hdisjoint other hmem other hother rfl
        rw [List.idxOf_cons_ne _ hne, List.idxOf_append_of_notMem hbelow, length_ids,
          Nat.add_assoc, Nat.add_assoc, Nat.add_comm 1]

/-! ## Properties of all nodes -/

theorem All.imp {P Q : NodeId → Content → Prop} {forest : Forest}
    (h : ∀ id content, P id content → Q id content) (hall : forest.All P) : forest.All Q := by
  induction forest with
  | nil => trivial
  | node id content below beside ihBelow ihBeside =>
      exact ⟨h _ _ hall.1, ihBelow hall.2.1, ihBeside hall.2.2⟩

/-! ## Slots -/

/-- What is left fresh when the parts of a forest are taken one after the other. -/
theorem fresh_of_node {id : NodeId} {content : Content} {below beside : Forest}
    {fresh : List NodeId} (hnodup : (node id content below beside).ids.Nodup)
    (hfresh : (node id content below beside).ids ⊆ fresh) :
    id ∈ fresh ∧ (below.ids.Nodup ∧ below.ids ⊆ fresh.erase id) ∧
      beside.ids.Nodup ∧ beside.ids ⊆ (fresh.erase id).diff below.ids := by
  rw [ids, List.nodup_cons, List.nodup_append, List.mem_append, not_or] at hnodup
  obtain ⟨⟨hidBelow, hidBeside⟩, hbelow, hbeside, hdisjoint⟩ := hnodup
  rw [ids, List.cons_subset, List.append_subset] at hfresh
  obtain ⟨hid, hfreshBelow, hfreshBeside⟩ := hfresh
  refine ⟨hid, ⟨hbelow, ?_⟩, hbeside, ?_⟩
  · intro other hother
    have hne : other ≠ id := fun heq => hidBelow (heq ▸ hother)
    exact (List.mem_erase_of_ne hne).mpr (hfreshBelow hother)
  · intro other hother
    have hne : other ≠ id := fun heq => hidBeside (heq ▸ hother)
    exact List.mem_diff_of_mem ((List.mem_erase_of_ne hne).mpr (hfreshBeside hother))
      fun hmem => hdisjoint other hmem other hother rfl

namespace Mirrors

section node

variable {s : Sheet} {parent id : NodeId} {content : Content} {below beside : Forest}
variable (h : (node id content below beside).Mirrors s parent)
include h

theorem content?_node : s.content? id = some content := by
  rw [Sheet.content?, h.1]
  rfl

theorem parent?_node : s.parent? id = some parent := by
  rw [Sheet.parent?, h.1]
  rfl

theorem children_node : s.children id = below.roots := by
  rw [Sheet.children, h.1]
  rfl

end node

variable {s t : Sheet} {parent : NodeId} {forest forest' : Forest}

theorem congr (h : forest.Mirrors s parent) (hget : ∀ id ∈ forest.ids, t.get? id = s.get? id) :
    forest.Mirrors t parent := by
  induction forest generalizing parent with
  | nil => trivial
  | node id content below beside ihBelow ihBeside =>
      obtain ⟨hid, hbelow, hbeside⟩ := h
      simp only [ids, List.mem_cons, List.mem_append] at hget
      refine ⟨?_, ihBelow hbelow ?_, ihBeside hbeside ?_⟩
      · rw [hget id (.inl rfl), hid]
      · exact fun id hid => hget id (.inr (.inl hid))
      · exact fun id hid => hget id (.inr (.inr hid))

/-- The slots leave no choice of the forest. -/
theorem unique (h : forest.Mirrors s parent) (h' : forest'.Mirrors s parent)
    (hroots : forest.roots = forest'.roots) : forest = forest' := by
  induction forest generalizing parent forest' with
  | nil =>
      cases forest' with
      | nil => rfl
      | node => cases hroots
  | node id content below beside ihBelow ihBeside =>
      cases forest' with
      | nil => cases hroots
      | node id' content' below' beside' =>
          obtain ⟨rfl, hbeside⟩ := List.cons.inj hroots
          obtain ⟨hget, hb, hs⟩ := h
          obtain ⟨hget', hb', hs'⟩ := h'
          rw [hget, Option.some.injEq, Node.mk.injEq] at hget'
          obtain ⟨rfl, -, hbelow⟩ := hget'
          rw [ihBelow hb hb' hbelow, ihBeside hs hs' hbeside]

theorem parent?_of_mem_roots (h : forest.Mirrors s parent) {id : NodeId}
    (hid : id ∈ forest.roots) : s.parent? id = some parent := by
  induction forest with
  | nil => simp [roots] at hid
  | node first content below beside _ ihBeside =>
      rcases List.mem_cons.mp hid with rfl | hid
      · exact h.parent?_node
      · exact ihBeside h.2.2 hid

theorem mem_ids_iff (h : forest.Mirrors s parent) {id : NodeId} :
    id ∈ forest.ids ↔ ∃ top ∈ forest.roots, s.Below top id := by
  induction forest generalizing parent with
  | nil => simp [ids, roots]
  | node first content below beside ihBelow ihBeside =>
      have hfirst : s.Below first id ↔ id = first ∨ id ∈ below.ids := by
        rw [ihBelow h.2.1, ← h.children_node]
        constructor
        · exact Sheet.Below.cases_top
        · rintro (rfl | ⟨child, hchild, hbelow⟩)
          · exact .refl
          · exact .of_child hchild hbelow
      simp only [ids, roots, List.mem_cons, List.mem_append, ihBeside h.2.2,
        exists_eq_or_imp, hfirst, or_assoc]

theorem all_iff (h : forest.Mirrors s parent) {P : NodeId → Content → Prop} :
    forest.All P ↔ ∀ id ∈ forest.ids, ∀ content, s.content? id = some content → P id content := by
  induction forest generalizing parent with
  | nil => simp [ids, All]
  | node first content below beside ihBelow ihBeside =>
      simp only [All, ids, List.mem_cons, List.mem_append, ihBelow h.2.1, ihBeside h.2.2]
      constructor
      · rintro ⟨hfirst, hbelow, hbeside⟩ id (rfl | hid | hid) other hother
        · rw [h.content?_node] at hother
          cases hother
          exact hfirst
        · exact hbelow id hid other hother
        · exact hbeside id hid other hother
      · intro hall
        exact ⟨hall first (.inl rfl) content h.content?_node,
          fun id hid => hall id (.inr (.inl hid)),
          fun id hid => hall id (.inr (.inr hid))⟩

end Mirrors

end Forest

namespace Sheet

/-- Whether the attached part of the sheet is the forest. -/
structure Holds (s : Sheet) (forest : Forest) : Prop where
  root : s.get? rootId = some ⟨.root, none, forest.roots⟩
  mirrors : forest.Mirrors s rootId

namespace Holds

variable {s : Sheet} {forest forest' : Forest}

theorem children_root (h : s.Holds forest) : s.children rootId = forest.roots := by
  rw [children, h.root]
  rfl

theorem unique (h : s.Holds forest) (h' : s.Holds forest') : forest = forest' :=
  h.mirrors.unique h'.mirrors (by rw [← h.children_root, ← h'.children_root])

theorem mem_ids_iff (h : s.Holds forest) {id : NodeId} :
    id ∈ forest.ids ↔ ∃ top ∈ s.children rootId, s.Below top id := by
  rw [h.mirrors.mem_ids_iff, h.children_root]

end Holds

/-! ## The forest of a linked sheet -/

theorem get?_eq_some_of_content? {s : Sheet} {id : NodeId} {content : Content}
    (h : s.content? id = some content) :
    s.get? id = some ⟨content, s.parent? id, s.children id⟩ := by
  obtain ⟨node, hnode, rfl⟩ := Option.map_eq_some_iff.mp h
  simp [parent?, children, hnode]

namespace Linked

variable {s : Sheet} (h : s.Linked)
include h

theorem not_below_child {id child : NodeId} (hid : s.Below rootId id)
    (hmem : child ∈ s.children id) : ¬ s.Below child id := by
  intro hbelow
  obtain ⟨chain, hchain, -⟩ := h.exists_chain hid
  have hparent := (h.agreesAt hid).parent?_child hmem
  have hchild : s.Chain child (id :: chain) := .cons hparent hchain
  exact hchild.not_mem (hchain.mem_of_below hbelow fun hmid =>
    (h.agreesAt ((hid.child hmem).trans hmid)).parent?_child)

theorem not_below_sibling {id first second other : NodeId} (hid : s.Below rootId id)
    (hfirst : first ∈ s.children id) (hsecond : second ∈ s.children id) (hne : first ≠ second)
    (hother : s.Below first other) : ¬ s.Below second other := by
  have hparents (child : NodeId) (hchild : child ∈ s.children id) : s.parent? child = some id :=
    (h.agreesAt hid).parent?_child hchild
  induction hother with
  | refl =>
      intro hbelow
      cases hbelow with
      | refl => exact hne rfl
      | child hmid hmem =>
          have hparent := (h.agreesAt ((hid.child hsecond).trans hmid)).parent?_child hmem
          rw [hparents first hfirst] at hparent
          cases hparent
          exact h.not_below_child hid hsecond hmid
  | @child mid other hmid hmem ih =>
      intro hbelow
      have hparent := (h.agreesAt ((hid.child hfirst).trans hmid)).parent?_child hmem
      cases hbelow with
      | refl =>
          rw [hparents _ hsecond] at hparent
          cases hparent
          exact h.not_below_child hid hfirst hmid
      | child hmid' hmem' =>
          rw [(h.agreesAt ((hid.child hsecond).trans hmid')).parent?_child hmem'] at hparent
          cases hparent
          exact ih hmid'

private theorem exists_mirrors_within (steps : Nat) {parent : NodeId} {ids : List NodeId}
    (hparent : s.Below rootId parent) (hids : ∀ id ∈ ids, s.parent? id = some parent)
    (hsteps : s.size ≤ (s.ancestors parent).length + steps) :
    ∃ forest : Forest, forest.roots = ids ∧ forest.Mirrors s parent := by
  induction steps generalizing parent ids with
  | zero => exact absurd (h.chain_ancestors hparent).2 (Nat.not_lt.mpr hsteps)
  | succ steps ih =>
      induction ids with
      | nil => exact ⟨.nil, rfl, trivial⟩
      | cons id ids ihIds =>
          have hup := hids id List.mem_cons_self
          have hid := h.below_of_parent? hup hparent
          obtain ⟨content, hcontent⟩ := exists_content? (h.lt_size hid)
          have hancestors := h.ancestors_eq hid (.cons hup (h.chain_ancestors hparent).1)
          obtain ⟨below, hroots, hbelow⟩ := ih hid
            (fun child hchild => (h.agreesAt hid).parent?_child hchild)
            (by rw [hancestors, List.length_cons]; omega)
          obtain ⟨beside, hrest, hbeside⟩ :=
            ihIds fun id hid => hids id (List.mem_cons_of_mem _ hid)
          refine ⟨.node id content below beside, ?_, ?_, hbelow, hbeside⟩
          · rw [Forest.roots, hrest]
          · rw [get?_eq_some_of_content? hcontent, hup, hroots]

theorem exists_holds : ∃ forest, s.Holds forest := by
  obtain ⟨forest, hroots, hmirrors⟩ := h.exists_mirrors_within s.size .refl
    (fun id hid => (h.agreesAt .refl).parent?_child hid) (Nat.le_add_left _ _)
  refine ⟨forest, ?_, hmirrors⟩
  rw [get?_eq_some_of_content? h.content?_root, h.parent?_root, hroots]

private theorem nodup_ids_of_mirrors {parent : NodeId} {forest : Forest}
    (hparent : s.Below rootId parent) (hroots : forest.roots.Nodup)
    (hforest : forest.Mirrors s parent) : forest.ids.Nodup := by
  induction forest generalizing parent with
  | nil => exact List.nodup_nil
  | node id content below beside ihBelow ihBeside =>
      have hchild {other : NodeId} (hother : other ∈ (Forest.node id content below beside).roots) :=
        h.mem_children (hforest.parent?_of_mem_roots hother)
      have hmem := hchild List.mem_cons_self
      have hid := hparent.child hmem
      have hchildren := hforest.children_node
      obtain ⟨hfresh, hbeside⟩ := List.nodup_cons.mp hroots
      have hapart {other : NodeId} (hother : s.Below id other) : other ∉ beside.ids := by
        intro hmem'
        obtain ⟨top, htop, hbelow⟩ := hforest.2.2.mem_ids_iff.mp hmem'
        have hne : id ≠ top := fun heq => hfresh (heq ▸ htop)
        exact h.not_below_sibling hparent hmem (hchild (List.mem_cons_of_mem _ htop)) hne hother
          hbelow
      have hdown {other : NodeId} (hother : other ∈ below.ids) : s.Below id other ∧ id ≠ other := by
        obtain ⟨top, htop, hbelow⟩ := hforest.2.1.mem_ids_iff.mp hother
        rw [← hchildren] at htop
        refine ⟨.of_child htop hbelow, ?_⟩
        rintro rfl
        exact h.not_below_child hid htop hbelow
      rw [Forest.ids, List.nodup_cons, List.nodup_append, List.mem_append]
      refine ⟨?_, ihBelow hid (hchildren ▸ (h.agreesAt hid).nodup) hforest.2.1,
        ihBeside hparent hbeside hforest.2.2, ?_⟩
      · rintro (hself | hself)
        · exact (hdown hself).2 rfl
        · exact hapart .refl hself
      · rintro other hother _ hbeside' rfl
        exact hapart (hdown hother).1 hbeside'

theorem nodup_ids_of_holds {forest : Forest} (hforest : s.Holds forest) : forest.ids.Nodup := by
  apply h.nodup_ids_of_mirrors .refl _ hforest.mirrors
  rw [← hforest.children_root]
  exact (h.agreesAt .refl).nodup

theorem mem_ids_of_holds {forest : Forest} (hforest : s.Holds forest) {id : NodeId} :
    id ∈ forest.ids ↔ s.Below rootId id ∧ id ≠ rootId := by
  rw [hforest.mem_ids_iff]
  constructor
  · rintro ⟨top, htop, hbelow⟩
    refine ⟨.of_child htop hbelow, ?_⟩
    rintro rfl
    exact h.not_below_child .refl htop hbelow
  · rintro ⟨hbelow, hne⟩
    exact hbelow.cases_top.resolve_left hne

end Linked

/-! ## Walking a forest -/

private theorem walkFrom_of_mirrors {s : Sheet} {forest : Forest} {parent : NodeId}
    {fresh : List NodeId} (h : forest.Mirrors s parent) (hnodup : forest.ids.Nodup)
    (hfresh : forest.ids ⊆ fresh) (pending : List NodeId) :
    s.walkFrom fresh (forest.roots ++ pending) =
      forest.ids ++ s.walkFrom (fresh.diff forest.ids) pending := by
  induction forest generalizing parent fresh pending with
  | nil => rfl
  | node id content below beside ihBelow ihBeside =>
      obtain ⟨hid, ⟨hbelow, hbelowFresh⟩, hbeside, hbesideFresh⟩ :=
        Forest.fresh_of_node hnodup hfresh
      rw [Forest.roots, List.cons_append, walkFrom, if_pos hid, h.children_node,
        ihBelow h.2.1 hbelow hbelowFresh, ihBeside h.2.2 hbeside hbesideFresh, Forest.ids,
        List.diff_cons, List.diff_append, List.cons_append, List.append_assoc]

theorem Linked.walk_eq_of_holds {s : Sheet} (h : s.Linked) {forest : Forest}
    (hforest : s.Holds forest) : s.walk = rootId :: forest.ids := by
  have hfresh : forest.ids ⊆ s.ids.erase rootId := by
    intro id hid
    obtain ⟨hbelow, hne⟩ := (h.mem_ids_of_holds hforest).mp hid
    exact (List.mem_erase_of_ne hne).mpr (mem_ids.mpr (h.lt_size hbelow))
  have hwalk := walkFrom_of_mirrors hforest.mirrors (h.nodup_ids_of_holds hforest) hfresh []
  rw [List.append_nil, walkFrom, List.append_nil] at hwalk
  rw [walk_eq_cons, hforest.children_root, hwalk]

end Sheet

end Unnest
