import Unnest.Proofs.Flatten.Run
import Unnest.Proofs.Sheet.Consistent

/-!
# The outcome of a pass

A run ends with all promoted rules done and no hollow rule left, unless empty
rules are to be preserved. What is gone is then exactly what departs, so the
last stage is the flattening of the sheet. There is only one.
-/

namespace Unnest.Flatten

open Sheet

theorem mem_promotedRules {s : Sheet} (hs : s.Linked) {id : NodeId} :
    id ∈ promotedRules s ↔ Promoted s id := by
  rw [promotedRules, List.mem_filter, hs.mem_walkRules]
  constructor
  · rintro ⟨-, hid⟩
    exact of_decide_eq_true hid
  · intro hid
    exact ⟨⟨hid.below hs, hid.isRule⟩, decide_eq_true hid⟩

theorem Departs.isRule {s : Sheet} {preserveEmpty : Bool} {id : NodeId}
    (h : Departs s preserveEmpty id) : s.isRule id = true := by
  rcases h with hid | ⟨-, hid⟩
  · exact hid.isRule
  · exact hid.isRule

namespace Stage

variable {s t : Sheet} {preserveEmpty : Bool} {pruned : List NodeId}

/-- With no hollow rule left, all that is emptied is removed. -/
theorem mem_of_emptied (hs : s.Linked)
    (hsettled : ∀ id, ¬ Hollow s (promotedRules s) pruned id) {id : NodeId}
    (hid : Emptied s (Promoted s) id) : id ∈ promotedRules s ++ pruned := by
  induction hid with
  | @intro id attached isRule stays nonempty rules gone ih =>
      by_contra hgone
      refine hsettled id ⟨hs.isAttached_iff.mp attached, isRule, hgone, nonempty, ?_⟩
      intro child hchild
      by_cases hpromoted : Promoted s child
      · exact List.mem_append_left _ ((mem_promotedRules hs).mpr hpromoted)
      · exact ih child hchild hpromoted

/-- At the end of a run exactly those are gone that depart. -/
theorem gone_iff_departs (hs : s.Linked) (h : Stage s (promotedRules s) pruned t)
    (hsettled : Settled s preserveEmpty (promotedRules s) pruned) {id : NodeId} :
    id ∈ promotedRules s ++ pruned ↔ Departs s preserveEmpty id := by
  constructor
  · intro hid
    rcases List.mem_append.mp hid with hdone | hpruned
    · exact .inl ((mem_promotedRules hs).mp hdone)
    · cases preserveEmpty with
      | true =>
          rw [show pruned = [] from hsettled] at hpruned
          cases hpruned
      | false =>
          right
          exact ⟨rfl, (h.emptied hpruned).mono (fun _ => (mem_promotedRules hs).mp)
            fun _ hmoved => hmoved.2.2.2⟩
  · rintro (hid | ⟨rfl, hid⟩)
    · exact List.mem_append_left _ ((mem_promotedRules hs).mpr hid)
    · exact mem_of_emptied hs hsettled hid

/-- The last stage of a run is the flattening of the sheet. -/
theorem isFlattening (hs : s.Linked) (h : Stage s (promotedRules s) pruned t)
    (hsettled : Settled s preserveEmpty (promotedRules s) pruned) :
    IsFlattening s preserveEmpty t := by
  have hgone {id : NodeId} : id ∈ promotedRules s ++ pruned ↔ Departs s preserveEmpty id :=
    h.gone_iff_departs hs hsettled
  have hstaying (ids : List NodeId) :
      ids.filter (· ∉ promotedRules s ++ pruned) = staying s preserveEmpty ids := by
    apply List.filter_congr
    intro id _
    rw [decide_eq_decide, hgone]
  have hpromoted {id : NodeId} : id ∈ promotedRules s ↔ Promoted s id := mem_promotedRules hs
  have hbelow {id : NodeId} : s.isAttached id = true ↔ s.Below rootId id := hs.isAttached_iff
  exact {
    size := h.size
    content? := h.content?
    content?_copy := h.content?_copy
    children_root := by rw [h.children_root hs, hstaying]
    children := by
      intro id hid hroot hstays
      have hchildren := h.children_home (hbelow.mp hid)
      rwa [home_of_not_mem (hpromoted.not.mpr hstays), hstaying, if_neg hroot,
        List.append_nil] at hchildren
    children_copy := by
      intro k rule hk
      have hrule := hpromoted.mp (List.mem_of_getElem? hk)
      have hchildren := h.children_home (hrule.below hs)
      rwa [home_of_getElem? h.nodup hk, hstaying, if_neg (hs.ne_root_of_isRule hrule.isRule),
        List.append_nil] at hchildren
    children_promoted := fun hrule => h.children_done (hpromoted.mpr hrule)
    parent?_root := (h.linked hs).parent?_root
    parent?_departed := by
      intro id hid
      rw [h.parent? (hs.lt_size (h.below_of_gone hs (hgone.mpr hid))), if_pos (hgone.mpr hid)]
    parent? := by
      intro id parent hid hstays hparent hself
      rw [h.parent? (hs.lt_size (hbelow.mp hid)), if_neg (hgone.not.mpr hstays), hparent,
        Option.map_some, home_of_not_mem (hpromoted.not.mpr hself)]
    parent?_moved := by
      intro id rule k hid hstays hparent hk
      rw [h.parent? (hs.lt_size (hbelow.mp hid)), if_neg (hgone.not.mpr hstays), hparent,
        Option.map_some, home_of_getElem? h.nodup hk]
    parent?_copy := h.parent?_copy
    detached := by
      intro id hid hdetached
      have hid' : ¬ s.Below rootId id := by
        rw [← hbelow, hdetached]
        exact Bool.false_ne_true
      refine get?_eq_of_views (h.content? hid) ?_ (h.children_detached hid hid')
      rw [h.parent? hid, if_neg fun hmem => hid' (h.below_of_gone hs hmem)]
      cases hparent : s.parent? id with
      | none => rfl
      | some parent =>
          have hdone : parent ∉ promotedRules s := fun hdone =>
            hid' (hs.below_of_parent? hparent ((hpromoted.mp hdone).below hs))
          rw [Option.map_some, home_of_not_mem hdone] }

end Stage

/-! ## One flattening -/

namespace IsFlattening

variable {s t u : Sheet} {preserveEmpty : Bool}
variable (hs : s.Linked) (ht : IsFlattening s preserveEmpty t)
  (hu : IsFlattening s preserveEmpty u)
include hs ht hu

private theorem parent?_congr {id : NodeId} (hid : s.Below rootId id) :
    t.parent? id = u.parent? id := by
  have hattached := hs.isAttached_iff.mpr hid
  by_cases hroot : id = rootId
  · rw [hroot, ht.parent?_root, hu.parent?_root]
  · by_cases hdeparts : Departs s preserveEmpty id
    · rw [ht.parent?_departed hdeparts, hu.parent?_departed hdeparts]
    · obtain ⟨parent, hparent, -⟩ := hs.exists_parent? hid hroot
      by_cases hmoved : Promoted s parent
      · obtain ⟨k, hk⟩ := exists_getElem?_of_mem ((mem_promotedRules hs).mpr hmoved)
        rw [ht.parent?_moved hattached hdeparts hparent hk,
          hu.parent?_moved hattached hdeparts hparent hk]
      · rw [ht.parent? hattached hdeparts hparent hmoved,
          hu.parent? hattached hdeparts hparent hmoved]

private theorem children_congr {id : NodeId} (hid : s.Below rootId id) :
    t.children id = u.children id := by
  have hattached := hs.isAttached_iff.mpr hid
  by_cases hroot : id = rootId
  · rw [hroot, ht.children_root, hu.children_root]
  · by_cases hmoved : Promoted s id
    · rw [ht.children_promoted hmoved, hu.children_promoted hmoved]
    · rw [ht.children hattached hroot hmoved, hu.children hattached hroot hmoved]

omit hs in
private theorem get?_congr_copy {k : Nat} (hk : k < (promotedRules s).length) :
    t.get? (s.size + k) = u.get? (s.size + k) := by
  have hrule := List.getElem?_eq_getElem hk
  apply get?_eq_of_views
  · rw [ht.content?_copy hrule, hu.content?_copy hrule]
  · rw [ht.parent?_copy hk, hu.parent?_copy hk]
  · rw [ht.children_copy hrule, hu.children_copy hrule]

/-- The description leaves no choice. -/
theorem unique : t = u := by
  apply ext_get?
  intro id
  rcases Nat.lt_or_ge id s.size with hlt | hge
  · cases hattached : s.isAttached id with
    | false => rw [ht.detached hlt hattached, hu.detached hlt hattached]
    | true =>
        have hid := hs.isAttached_iff.mp hattached
        refine get?_eq_of_views ?_ (parent?_congr hs ht hu hid) (children_congr hs ht hu hid)
        rw [ht.content? hlt, hu.content? hlt]
  · obtain ⟨k, rfl⟩ := Nat.exists_eq_add_of_le hge
    rcases Nat.lt_or_ge k (promotedRules s).length with hk | hk
    · exact get?_congr_copy ht hu hk
    · have hsize (v : Sheet) (hv : IsFlattening s preserveEmpty v) :
          v.get? (s.size + k) = none := by
        rw [get?_eq_none_iff, hv.size]
        exact Nat.add_le_add_left hk _
      rw [hsize t ht, hsize u hu]

end IsFlattening

/-- The pass succeeds on every accepted sheet and makes its flattening of it. -/
theorem pass_flattens {s : Sheet} (hvalid : s.validate = .ok ()) (hroot : s.parent? rootId = none)
    (options : Options) (log : List LogEntry) :
    ∃ tally t log', RunM.exec (pass options) ⟨s, log⟩ = (.ok tally, ⟨t, log'⟩) ∧
      ∀ u, IsFlattening s options.preserveEmpty u ↔ u = t := by
  have hs := linked_of_validate hvalid hroot
  obtain ⟨moves, t, hexec, -, hstage, hend⟩ := Stage.exec_pass hs hvalid options log
  have ht := hstage.isFlattening hs hend
  refine ⟨_, t, _, hexec, ?_⟩
  intro u
  constructor
  · exact fun hu => hu.unique hs ht
  · rintro rfl
    exact ht

/-- `a { b { c { x: y } } }` with nothing but rules around the declaration. -/
def nestedSheet : Sheet where
  nodes := #[⟨.root, none, [1]⟩, ⟨.rule "a", some 0, [2]⟩, ⟨.rule "b", some 1, [3]⟩,
    ⟨.rule "c", some 2, [4]⟩, ⟨.declaration "x" "y" false, some 3, []⟩]
  nonempty := by decide

theorem pass_flattens_nestedSheet :
    nestedSheet.validate = .ok () ∧ nestedSheet.parent? rootId = none ∧
      ∃ tally t log', RunM.exec (pass {}) ⟨nestedSheet, []⟩ = (.ok tally, ⟨t, log'⟩) ∧
        ∀ u, IsFlattening nestedSheet false u ↔ u = t := by
  have hvalid : nestedSheet.validate = .ok () := by decide +kernel
  have hroot : nestedSheet.parent? rootId = none := by decide
  exact ⟨hvalid, hroot, pass_flattens hvalid hroot {} []⟩

end Unnest.Flatten
