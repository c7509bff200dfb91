import Mathlib.Data.List.Induction
import Mathlib.Data.List.Perm.Basic
import Mathlib.Logic.Relation
import Std.Data.HashMap.Lemmas
import DiffGraph.Draft.Dependencies
import DiffGraph.Proofs.Graph.Interning

/-!
The walk along operands is exact. It puts every node that is reached from the roots in order once,
each after its operands, and it lists the users of a node once for every operand position. The
invariant of the walk says which nodes wait to be left and where their operands are meanwhile: put
in order, or still ahead in the list of tasks.
-/

set_option autoImplicit false

namespace DiffGraph

open List

variable {g : Graph} {roots : List NodeId} {n : Node}

namespace Visit

def id : Visit → NodeId
  | .enter id => id
  | .leave id => id

/-- The node that the task leaves. -/
def left? : Visit → Option NodeId
  | .enter _ => none
  | .leave id => some id

end Visit

namespace Graph

theorem operands_of_node? {id : NodeId} (h : g.node? id = some n) : g.operands id = n.operands := by
  rw [operands, h]
  rfl

theorem operands_of_kind {id : NodeId} {kind : NodeKind} (h : g.node? id = some n)
    (hk : n.kind = kind) : g.operands id = kind.operands :=
  (operands_of_node? h).trans (Node.operands_of_kind hk)

/-- The node is reached from one of the roots along operands. -/
def Reaches (g : Graph) (roots : List NodeId) (id : NodeId) : Prop :=
  ∃ root ∈ roots, Relation.ReflTransGen (fun user arg ↦ arg ∈ g.operands user) root id

theorem Reaches.root {root : NodeId} (h : root ∈ roots) : g.Reaches roots root := ⟨root, h, .refl⟩

theorem Reaches.operand {user operand : NodeId} (h : g.Reaches roots user)
    (hop : operand ∈ g.operands user) : g.Reaches roots operand := by
  obtain ⟨root, hrt, hpath⟩ := h
  exact ⟨root, hrt, hpath.tail hop⟩

theorem Reaches.trans {middle id : NodeId} (h : g.Reaches roots middle)
    (hl : g.Reaches [middle] id) : g.Reaches roots id := by
  obtain ⟨root, hrt, hpath⟩ := h
  obtain ⟨start, hsta, hrs⟩ := hl
  obtain rfl := mem_singleton.mp hsta
  exact ⟨root, hrt, hpath.trans hrs⟩

theorem Reaches.index_le {root id : NodeId} (h : g.Reaches [root] id) : id.index ≤ root.index := by
  obtain ⟨start, hsta, hpath⟩ := h
  obtain rfl := mem_singleton.mp hsta
  induction hpath with
  | refl => exact Nat.le_refl _
  | @tail user arg _ hop ih =>
    rw [operands] at hop
    cases hn : g.node? user with
    | none =>
      rw [hn] at hop
      cases hop
    | some n =>
      rw [hn] at hop
      exact Nat.le_trans (Nat.le_of_lt (operand_index_lt hn hop)) ih

/-- A node that is reached is a root or an operand of another one. -/
theorem Reaches.cases {id : NodeId} (h : g.Reaches roots id) :
    id ∈ roots ∨ ∃ user, g.Reaches roots user ∧ id ∈ g.operands user := by
  obtain ⟨root, hrt, hpath⟩ := h
  rcases hpath.cases_tail with rfl | ⟨user, hprefix, hop⟩
  · exact .inl hrt
  · exact .inr ⟨user, ⟨root, hrt, hprefix⟩, hop⟩

end Graph

namespace Dependencies

variable {m : Dependencies} {pending : List Visit}

/-- One task comes before another. -/
def Ahead (pending : List Visit) (first second : Visit) : Prop :=
  Sublist [first, second] pending

/-- The users that a list of nodes gives to a node, once for every operand position. -/
def usersAmong (g : Graph) (users : List NodeId) (id : NodeId) : List NodeId :=
  users.flatMap fun user ↦ ((g.operands user).filter (· == id)).map fun _ ↦ user

/-- What holds in the course of a walk. -/
structure Walk (g : Graph) (roots : List NodeId) (pending : List Visit)
    (m : Dependencies) : Prop where
  entered_iff : ∀ id, m.operands.contains id = true ↔ id ∈ m.discovered.toList
  listed : ∀ id args, m.operands[id]? = some args → args = g.operands id
  nodup : m.discovered.toList.Nodup
  /-- A discovered node is in order or waits to be left. -/
  waiting : m.discovered.toList.Perm (m.inOrder.toList ++ pending.filterMap Visit.left?)
  /-- Tasks ahead of leaving a node are about nodes that were built before it. -/
  nested : pending.Pairwise fun task later ↦
    ∀ id, later = .leave id → task.id.index < id.index
  /-- Operands of a node that waits are in order or ahead of it. -/
  covered : ∀ id arg, .leave id ∈ pending → arg ∈ g.operands id →
    arg ∈ m.inOrder.toList ∨ Ahead pending (.enter arg) (.leave id) ∨
      Ahead pending (.leave arg) (.leave id)
  ordered : ∀ earlier id later, m.inOrder.toList = earlier ++ id :: later →
    ∀ arg ∈ g.operands id, arg ∈ earlier
  reached : ∀ id ∈ m.discovered.toList, g.Reaches roots id
  reaching : ∀ id, .enter id ∈ pending → g.Reaches roots id
  rooted : ∀ root ∈ roots, root ∈ m.discovered.toList ∨ .enter root ∈ pending
  users : ∀ id, (m.usersOf id).toList = usersAmong g m.discovered.toList id

theorem walk_start (g : Graph) (roots : List NodeId) : Walk g roots (roots.map .enter) empty where
  entered_iff id := by simp [empty]
  listed id operands h := by simp [empty] at h
  nodup := nodup_nil
  waiting := by
    rw [filterMap_map]
    simp [empty, Function.comp_def, Visit.left?]
  nested := by
    rw [pairwise_map]
    exact pairwise_of_forall fun _ _ _ h ↦ nomatch h
  covered id operand hleave := by simp at hleave
  ordered earlier id later h := by simp [empty] at h
  reached id h := by simp [empty] at h
  reaching id h := by
    obtain ⟨root, hrt, heq⟩ := mem_map.mp h
    cases heq
    exact .root hrt
  rooted root hrt := .inr (mem_map_of_mem hrt)
  users id := by simp [usersOf, usersAmong, empty]

/-- A node with a task ahead of it does not wait. -/
theorem Walk.not_waiting {task : Visit} (h : Walk g roots (task :: pending) m) :
    .leave task.id ∉ pending := by
  intro hwaits
  have hlt := (pairwise_cons.mp h.nested).1 _ hwaits task.id rfl
  omega

theorem mem_filterMap_left? {id : NodeId} :
    id ∈ pending.filterMap Visit.left? ↔ .leave id ∈ pending := by
  rw [mem_filterMap]
  constructor
  · rintro ⟨task, htask, hleft⟩
    cases task with
    | enter other => cases hleft
    | leave other =>
      cases hleft
      exact htask
  · exact fun h ↦ ⟨.leave id, h, rfl⟩

theorem Ahead.mem {first second : Visit} (h : Ahead pending first second) : second ∈ pending :=
  h.subset (mem_cons_of_mem _ mem_cons_self)

theorem ahead_cons {first second task : Visit} : Ahead (task :: pending) first second ↔
      Ahead pending first second ∨ first = task ∧ second ∈ pending := by
  unfold Ahead
  rw [sublist_cons_iff]
  refine or_congr_right ⟨?_, ?_⟩
  · rintro ⟨rest, heq, hrs⟩
    obtain ⟨rfl, rfl⟩ := cons.inj heq
    exact ⟨rfl, singleton_sublist.mp hrs⟩
  · rintro ⟨rfl, hsnd⟩
    exact ⟨[second], rfl, singleton_sublist.mpr hsnd⟩

theorem Walk.leave {id : NodeId} (h : Walk g roots (.leave id :: pending) m) :
    Walk g roots pending { m with inOrder := m.inOrder.push id } where
  entered_iff := h.entered_iff
  listed := h.listed
  nodup := h.nodup
  waiting := by
    refine h.waiting.trans ?_
    rw [Array.toList_push, append_assoc]
    exact .rfl
  nested := (pairwise_cons.mp h.nested).2
  covered other operand hleave hop := by
    rw [Array.toList_push]
    rcases h.covered other operand (mem_cons_of_mem _ hleave) hop with
      hdone | hahead | hahead
    · exact .inl (mem_append_left _ hdone)
    · rcases ahead_cons.mp hahead with hahead | ⟨heq, -⟩
      · exact .inr (.inl hahead)
      · cases heq
    · rcases ahead_cons.mp hahead with hahead | ⟨heq, -⟩
      · exact .inr (.inr hahead)
      · cases heq
        exact .inl (mem_append_right _ mem_cons_self)
  ordered earlier other later heq operand hop := by
    rw [Array.toList_push] at heq
    rcases eq_nil_or_concat later with rfl | ⟨rest, last, rfl⟩
    · -- the node that is left now
      obtain ⟨rfl, hla⟩ := append_inj' heq rfl
      obtain rfl := singleton_inj.mp hla
      rcases h.covered id operand mem_cons_self hop with hdone | hahead | hahead
      · exact hdone
      · rcases ahead_cons.mp hahead with hahead | ⟨heq, -⟩
        · exact absurd hahead.mem h.not_waiting
        · cases heq
      · rcases ahead_cons.mp hahead with hahead | ⟨-, hagain⟩
        · exact absurd hahead.mem h.not_waiting
        · exact absurd hagain h.not_waiting
    · rw [concat_eq_append, ← cons_append, ← append_assoc] at heq
      exact h.ordered earlier other rest (append_inj' heq rfl).1 operand hop
  reached := h.reached
  reaching other ho := h.reaching other (mem_cons_of_mem _ ho)
  rooted root hrt := by
    refine (h.rooted root hrt).imp_right fun hpen ↦ ?_
    rcases mem_cons.mp hpen with heq | hpen
    · cases heq
    · exact hpen
  users := h.users

/-- A node that was entered before and is met again is already in order. -/
theorem Walk.mem_inOrder {id : NodeId} (h : Walk g roots (.enter id :: pending) m)
    (hentered : m.operands.contains id = true) : id ∈ m.inOrder.toList := by
  have hm := h.waiting.mem_iff.mp ((h.entered_iff id).mp hentered)
  rcases mem_append.mp hm with hdone | hwaits
  · exact hdone
  · rcases mem_cons.mp (mem_filterMap_left?.mp hwaits) with heq | hwaits
    · cases heq
    · exact absurd hwaits h.not_waiting

theorem Walk.skip {id : NodeId} (h : Walk g roots (.enter id :: pending) m)
    (hentered : m.operands.contains id = true) : Walk g roots pending m where
  entered_iff := h.entered_iff
  listed := h.listed
  nodup := h.nodup
  waiting := h.waiting
  nested := (pairwise_cons.mp h.nested).2
  covered other operand hleave hop := by
    rcases h.covered other operand (mem_cons_of_mem _ hleave) hop with
      hdone | hahead | hahead
    · exact .inl hdone
    · rcases ahead_cons.mp hahead with hahead | ⟨heq, -⟩
      · exact .inr (.inl hahead)
      · cases heq
        exact .inl (h.mem_inOrder hentered)
    · rcases ahead_cons.mp hahead with hahead | ⟨heq, -⟩
      · exact .inr (.inr hahead)
      · cases heq
  ordered := h.ordered
  reached := h.reached
  reaching other ho := h.reaching other (mem_cons_of_mem _ ho)
  rooted root hrt := by
    rcases h.rooted root hrt with hdone | hpen
    · exact .inl hdone
    · rcases mem_cons.mp hpen with heq | hpen
      · cases heq
        exact .inl ((h.entered_iff id).mp hentered)
      · exact .inr hpen
  users := h.users

/-- Every operand position adds the node to the users of what is there. -/
theorem getD_foldl_users (args : List NodeId) (user id : NodeId)
    (users : Std.HashMap NodeId (Array NodeId)) :
    ((args.foldl (fun users arg ↦
      users.insert arg ((users.getD arg #[]).push user)) users).getD id #[]).toList =
      (users.getD id #[]).toList ++ (args.filter (· == id)).map fun _ ↦ user := by
  induction args generalizing users with
  | nil => simp
  | cons arg args ih =>
    rw [foldl_cons, ih, Std.HashMap.getD_insert]
    by_cases heq : arg = id
    · simp [heq]
    · simp [heq]

theorem Walk.enter {id : NodeId} (h : Walk g roots (.enter id :: pending) m)
    (hfr : ¬m.operands.contains id = true) :
    Walk g roots ((g.operands id).map .enter ++ .leave id :: pending)
      (m.enter g id) where
  entered_iff other := by
    simp only [Dependencies.enter, Std.HashMap.contains_insert, Array.toList_push, mem_append,
      mem_singleton, Bool.or_eq_true, beq_iff_eq, h.entered_iff]
    exact ⟨fun hor ↦ hor.symm.imp_right Eq.symm, fun hor ↦ hor.symm.imp_left Eq.symm⟩
  listed other operands ho := by
    rw [Dependencies.enter, Std.HashMap.getElem?_insert] at ho
    split at ho
    next heq => rw [← Option.some.inj ho, beq_iff_eq.mp heq]
    next => exact h.listed other operands ho
  nodup := by
    rw [Dependencies.enter, Array.toList_push, nodup_append]
    refine ⟨h.nodup, pairwise_singleton _ _, fun other ho last hla ↦ ?_⟩
    obtain rfl := mem_singleton.mp hla
    rintro rfl
    exact hfr ((h.entered_iff _).mpr ho)
  waiting := by
    have hno : ((g.operands id).map Visit.enter).filterMap Visit.left? = [] := by
      rw [filterMap_map]
      exact filterMap_eq_nil_iff.mpr fun _ _ ↦ rfl
    rw [Dependencies.enter, Array.toList_push, filterMap_append, hno, nil_append]
    refine (perm_append_singleton _ _).trans ?_
    exact (h.waiting.cons id).trans perm_middle.symm
  nested := by
    have hl := (pairwise_cons.mp h.nested).1
    rw [pairwise_append, pairwise_map, pairwise_cons]
    refine ⟨pairwise_of_forall (fun _ _ _ heq ↦ nomatch heq),
      ⟨hl, (pairwise_cons.mp h.nested).2⟩, ?_⟩
    intro task htask later hm other heq
    obtain ⟨operand, hop, rfl⟩ := mem_map.mp htask
    have hlt := Graph.index_lt_of_mem_operands hop
    rcases mem_cons.mp hm with rfl | hm
    · cases heq
      exact hlt
    · exact Nat.lt_trans hlt (hl later hm other heq)
  covered other operand hleave hop := by
    have hgr {first second : Visit} (hahead : Ahead pending first second) :
        Ahead ((g.operands id).map .enter ++ .leave id :: pending) first second :=
      hahead.trans ((sublist_cons_self _ _).trans (sublist_append_right _ _))
    rcases mem_append.mp hleave with hleave | hleave
    · obtain ⟨_, _, heq⟩ := mem_map.mp hleave
      cases heq
    rcases mem_cons.mp hleave with heq | hleave
    · cases heq
      refine .inr (.inl ?_)
      have hfst : Sublist [Visit.enter operand] ((g.operands id).map .enter) :=
        singleton_sublist.mpr (mem_map_of_mem hop)
      exact hfst.append (singleton_sublist.mpr mem_cons_self)
    · rcases h.covered other operand (mem_cons_of_mem _ hleave) hop with
        hdone | hahead | hahead
      · exact .inl hdone
      · rcases ahead_cons.mp hahead with hahead | ⟨heq, hl⟩
        · exact .inr (.inl (hgr hahead))
        · cases heq
          refine .inr (.inr (Sublist.trans ?_ (sublist_append_right _ _)))
          exact (singleton_sublist.mpr hl).cons_cons _
      · rcases ahead_cons.mp hahead with hahead | ⟨heq, -⟩
        · exact .inr (.inr (hgr hahead))
        · cases heq
  ordered := h.ordered
  reached other ho := by
    rw [Dependencies.enter, Array.toList_push] at ho
    rcases mem_append.mp ho with ho | ho
    · exact h.reached other ho
    · obtain rfl := mem_singleton.mp ho
      exact h.reaching _ mem_cons_self
  reaching other ho := by
    rcases mem_append.mp ho with ho | ho
    · obtain ⟨operand, hop, heq⟩ := mem_map.mp ho
      cases heq
      exact (h.reaching id mem_cons_self).operand hop
    · rcases mem_cons.mp ho with heq | ho
      · cases heq
      · exact h.reaching other (mem_cons_of_mem _ ho)
  rooted root hrt := by
    rw [Dependencies.enter, Array.toList_push]
    rcases h.rooted root hrt with hdone | hpen
    · exact .inl (mem_append_left _ hdone)
    · rcases mem_cons.mp hpen with heq | hpen
      · cases heq
        exact .inl (mem_append_right _ mem_cons_self)
      · exact .inr (mem_append_right _ (mem_cons_of_mem _ hpen))
  users other := by
    have hold := h.users other
    rw [usersOf] at hold
    rw [usersOf, Dependencies.enter, getD_foldl_users, hold, Array.toList_push]
    unfold usersAmong
    rw [flatMap_append, flatMap_singleton]

theorem Walk.run (h : Walk g roots pending m) : Walk g roots [] (walk g pending m) := by
  fun_induction walk g pending m with
  | case1 m => exact h
  | case2 m id pending ih => exact ih h.leave
  | case3 m id pending hentered ih => exact ih (h.skip hentered)
  | case4 m id pending hfr ih => exact ih (h.enter hfr)

section Exact

variable (g : Graph) (roots : List NodeId)

theorem walk_of : Walk g roots [] (of g roots) := (walk_start g roots).run

theorem discovered_perm_inOrder :
    (of g roots).discovered.toList.Perm (of g roots).inOrder.toList := by
  simpa using (walk_of g roots).waiting

theorem nodup_inOrder : (of g roots).inOrder.toList.Nodup :=
  (discovered_perm_inOrder g roots).nodup_iff.mp (walk_of g roots).nodup

/-- Every operand comes before the nodes that use it. -/
theorem operands_inOrder {earlier later : List NodeId} {id : NodeId}
    (h : (of g roots).inOrder.toList = earlier ++ id :: later) :
    ∀ arg ∈ g.operands id, arg ∈ earlier :=
  (walk_of g roots).ordered earlier id later h

theorem operand_mem_inOrder {id arg : NodeId} (h : id ∈ (of g roots).inOrder.toList)
    (hop : arg ∈ g.operands id) : arg ∈ (of g roots).inOrder.toList := by
  obtain ⟨earlier, later, heq⟩ := append_of_mem h
  rw [heq]
  exact mem_append_left _ (operands_inOrder g roots heq arg hop)

/-- The nodes in order are those that are reached from the roots. -/
theorem mem_inOrder_iff {id : NodeId} : id ∈ (of g roots).inOrder.toList ↔ g.Reaches roots id := by
  have hperm := discovered_perm_inOrder g roots
  constructor
  · exact fun h ↦ (walk_of g roots).reached id (hperm.mem_iff.mpr h)
  · rintro ⟨root, hrt, hpath⟩
    induction hpath with
    | refl =>
      rcases (walk_of g roots).rooted root hrt with hdone | hpen
      · exact hperm.mem_iff.mp hdone
      · cases hpen
    | tail _ hop ih => exact operand_mem_inOrder g roots ih hop

theorem length_usersAmong (users : List NodeId) (id : NodeId) :
    (usersAmong g users id).length = (users.flatMap g.operands).count id := by
  induction users with
  | nil => rfl
  | cons user users ih =>
    rw [usersAmong, flatMap_cons, length_append, length_map, flatMap_cons,
      count_append, count_eq_length_filter, ← ih]
    rfl

/-- A node is used as often as it is an operand of the nodes in order. -/
theorem useCount_eq (id : NodeId) : (of g roots).useCount id =
      ((of g roots).inOrder.toList.flatMap g.operands).count id := by
  rw [useCount, ← Array.length_toList, (walk_of g roots).users, length_usersAmong]
  exact ((discovered_perm_inOrder g roots).flatMap_right _).count_eq id

/-- Tasks are done one after another. -/
theorem walk_append (first second : List Visit) (m : Dependencies) :
    walk g (first ++ second) m = walk g second (walk g first m) := by
  fun_induction walk g first m with
  | case1 m => rfl
  | case2 m id pending ih => rw [cons_append, walk, ih]
  | case3 m id pending hentered ih => rw [cons_append, walk, if_pos hentered, ih]
  | case4 m id pending hfr ih =>
    rw [append_assoc, cons_append] at ih
    rw [cons_append, walk, if_neg hfr, ih]

theorem inOrder_prefix_walk (pending : List Visit) (m : Dependencies) :
    m.inOrder.toList <+: (walk g pending m).inOrder.toList := by
  fun_induction walk g pending m with
  | case1 m => exact prefix_rfl
  | case2 m id pending ih =>
    rw [Array.toList_push] at ih
    exact (prefix_append _ _).trans ih
  | case3 _ _ _ _ ih | case4 _ _ _ _ ih => exact ih

/-- What further roots add comes after what was in order. -/
theorem inOrder_prefix_append (others : List NodeId) :
    (of g roots).inOrder.toList <+: (of g (roots ++ others)).inOrder.toList := by
  rw [of, of, map_append, walk_append]
  exact inOrder_prefix_walk g _ _

/-- Roots that come after all they depend on stand in order as they were given. -/
theorem filter_inOrder {roots : List NodeId} {p : NodeId → Bool}
    (hsorted : roots.Pairwise fun earlier later ↦ earlier.index < later.index)
    (hroots : ∀ root ∈ roots, p root = true)
    (hreached : ∀ id, g.Reaches roots id → p id = true → id ∈ roots) :
    (of g roots).inOrder.toList.filter p = roots := by
  induction roots using reverseRecOn with
  | nil => simp [of, walk, empty]
  | append_singleton roots root ih =>
    obtain ⟨hsorted, -, hla⟩ := pairwise_append.mp hsorted
    have hbf (other : NodeId) (ho : other ∈ roots) : other.index < root.index :=
      hla other ho root mem_cons_self
    have hnot : ¬g.Reaches roots root := by
      rintro ⟨other, ho, hpath⟩
      have hle := Graph.Reaches.index_le ⟨other, mem_singleton.mpr rfl, hpath⟩
      have hlt := hbf other ho
      omega
    have hfst : (of g roots).inOrder.toList.filter p = roots := by
      refine ih hsorted (fun other ho ↦ hroots other (mem_append_left _ ho)) ?_
      rintro id ⟨other, ho, hpath⟩ hid
      rcases mem_append.mp (hreached id ⟨other, mem_append_left _ ho, hpath⟩ hid) with hls | heq
      · exact hls
      · exact absurd ⟨other, ho, mem_singleton.mp heq ▸ hpath⟩ hnot
    obtain ⟨new, hnew⟩ := inOrder_prefix_append g roots [root]
    have hnd := nodup_inOrder g (roots ++ [root])
    rw [← hnew] at hnd ⊢
    rw [filter_append, hfst]
    congr 1
    -- Of the nodes that the last root adds, only the root itself is of the kind.
    have hmem (id : NodeId) : id ∈ new.filter p ↔ id = root := by
      rw [mem_filter]
      constructor
      · rintro ⟨hid, hk⟩
        have hrch : g.Reaches (roots ++ [root]) id := by
          rw [← mem_inOrder_iff, ← hnew]
          exact mem_append_right _ hid
        rcases mem_append.mp (hreached id hrch hk) with hls | heq
        · have hear := (mem_inOrder_iff g roots).mpr (.root hls)
          exact absurd rfl ((nodup_append.mp hnd).2.2 id hear id hid)
        · exact mem_singleton.mp heq
      · rintro rfl
        have hls := mem_append_right roots (mem_singleton_self id)
        refine ⟨?_, hroots id hls⟩
        have hdone := (mem_inOrder_iff g (roots ++ [id])).mpr (.root hls)
        rw [← hnew] at hdone
        refine (mem_append.mp hdone).resolve_left fun hear ↦ ?_
        exact hnot ((mem_inOrder_iff g roots).mp hear)
    refine perm_singleton.mp ((perm_ext_iff_of_nodup ?_ (pairwise_singleton _ _)).mpr ?_)
    · exact (nodup_append.mp hnd).2.1.filter _
    · exact fun id ↦ (hmem id).trans mem_singleton.symm

end Exact

end Dependencies

end DiffGraph
