import DiffGraph.Proofs.Draft.Intactness

/-!
Elements that are written one after another. An indexed write to an address takes the first element
that was not yet written in this way, and the element is counted when nothing can fail any more. So
over a whole run of operations, failures included, the writes to an address that succeed go to its
elements from the first one on (`Draft.Reachable.indexed_writes_in_order`), whether they are asked for
from outside or by the rules of operators.
-/

set_option autoImplicit false

namespace DiffGraph

open Stateful Build Option List TypeDefinition

variable {d draft older newer after : Draft} {addr address id : NodeId}
  {log : List (NodeId × NodeId)} {v : Operand}

namespace Draft

/-- The number of elements that were written one after another. -/
abbrev elementCount (d : Draft) (addr : NodeId) : Nat :=
  d.elementsWritten.getD addr 0

/-- The nodes of a log that write to elements of an address. -/
def writesTo (log : List (NodeId × NodeId)) (addr : NodeId) : List NodeId :=
  (log.filter fun e ↦ e.1 = addr).map Prod.snd

theorem writesTo_append (log later : List (NodeId × NodeId)) (address : NodeId) :
    writesTo (log ++ later) address = writesTo log address ++ writesTo later address := by
  rw [writesTo, filter_append, map_append]
  rfl

theorem writesTo_singleton (addr id other : NodeId) :
    writesTo [(addr, id)] other = if addr = other then [id] else [] := by
  by_cases hsame : addr = other <;> simp [writesTo, hsame]

namespace Chronicle

theorem elementCount_eq (h : older.Chronicle log newer) (addr : NodeId) :
    newer.elementCount addr = older.elementCount addr + (writesTo log addr).length := by
  induction h with
  | start => rfl
  | quiet _ _ hsame ih => rw [elementCount, hsame, ← ih]
  | @element log middle id other _ _ ih =>
    rw [writesTo_append, writesTo_singleton, length_append, ← Nat.add_assoc, ← ih]
    by_cases hsame : other = addr <;> simp [elementCount, Std.HashMap.getD_insert, hsame]

/-- The writes go to one element after the other. -/
theorem writesElement (h : older.Chronicle log newer) {k : Nat}
    (hen : (writesTo log addr)[k]? = some id) :
    newer.WritesElement id addr (older.elementCount addr + k) := by
  induction h with
  | start => cases hen
  | quiet _ hl _ ih => exact (ih hen).later hl
  | @element log middle written other hchronicle hws ih =>
    have hl : middle.Precedes { middle with
        elementsWritten :=
          middle.elementsWritten.insert other (middle.elementsWritten.getD other 0 + 1) } :=
      { Precedes.refl middle with }
    rw [writesTo_append, writesTo_singleton] at hen
    by_cases hold : k < (writesTo log addr).length
    · rw [getElem?_append_left hold] at hen
      exact (ih hen).later hl
    · rw [getElem?_append_right (Nat.le_of_not_lt hold)] at hen
      by_cases hsame : other = addr
      · subst hsame
        obtain ⟨hla, rfl⟩ : k - (writesTo log other).length = 0 ∧ written = id := by
          simpa [getElem?_singleton, ite_none_right_eq_some] using hen
        have hcount := hchronicle.elementCount_eq other
        have hk : older.elementCount other + k = middle.elementCount other := by omega
        exact hk ▸ hws.later hl
      · rw [if_neg hsame] at hen
        cases hen

end Chronicle

/-- The same elements are counted. -/
def KeepsElements (older newer : Draft) : Prop := newer.elementsWritten = older.elementsWritten

instance : IsPreorder Draft KeepsElements where
  refl _ := rfl
  trans _ _ _ hfst hla := hla.trans hfst

end Draft

open Draft

namespace Build

section Elements

variable {finish : Operator → String → List NodeId → Bool → Build NodeId}

theorem write_keepsElements (addr : NodeId) (v : Operand) (d : Draft) :
    KeepsElements d ((write addr v).run d).2 := by
  unfold write
  refine moves_bind (moves_query _ _) fun _ _ _ ↦ moves_bind (moves_query _ _) fun _ _ _ ↦ ?_
  split
  · exact moves_bind rfl fun _ _ _ ↦ moves_throw _ _
  refine moves_bind rfl fun _ s _ ↦ ?_
  dsimp only
  split
  · exact moves_throw _ _
  refine moves_bind (writtenValue_keepsRest _ _ _).elementsWritten fun _ _ _ ↦ ?_
  refine moves_bind (moves_typeOf _ _) fun _ _ _ ↦ ?_
  split
  · exact moves_bind rfl fun _ _ _ ↦ moves_throw _ _
  refine moves_bind (intern_keepsRest _ _ _ _).elementsWritten fun _ s _ ↦ ?_
  refine moves_bind ?_ fun _ _ _ ↦ moves_pure _ _
  show (ite _ s _ : Draft).elementsWritten = s.elementsWritten
  split <;> rfl

theorem declare_keepsElements (name t : String) (dir : Direction) (d : Draft) :
    KeepsElements d ((declare name t dir).run d).2 := by
  refine moves_bind (moves_query _ _) fun _ s _ ↦ moves_bind rfl fun _ s _ ↦ ?_
  split
  · exact moves_throw _ _
  refine moves_bind (intern_keepsRest _ _ _ _).elementsWritten fun _ _ _ ↦ ?_
  exact moves_bind rfl fun _ _ _ ↦ moves_pure _ _

/-- An indexed write that fails counts nothing. -/
theorem keepsElements_of_run_writeNextWith (hfin : Finishes finish) {error : Error}
    (h : (writeNextWith finish addr v).run d = (.error error, after)) :
    KeepsElements d after := by
  refine moves_bind_of_error h rfl fun _ s _ h ↦ ?_
  refine moves_bind_of_error h (indexWith_keepsRest hfin _ _ _).elementsWritten
    fun element s _ h ↦ ?_
  refine moves_bind_of_error h (write_keepsElements _ _ _) fun _ _ _ h ↦ ?_
  cases h

/-- An indexed write that succeeds writes to the first element that is not counted yet. -/
theorem chronicle_of_run_writeNextWith (hfin : Finishes finish)
    (hs : d.Sound) (h : (writeNextWith finish addr v).run d = (.ok id, after)) :
    d.Chronicle [(addr, id)] after := by
  obtain ⟨_, s, hg, hrs⟩ := ok_of_run_bind h
  obtain ⟨rfl, rfl⟩ := ok_of_run_get hg
  obtain ⟨element, middle, hix, hwritten⟩ := ok_of_run_bind hrs
  obtain ⟨written, last, hw, hcounted⟩ := ok_of_run_bind hwritten
  obtain ⟨_, s', hmodify, hret⟩ := ok_of_run_bind hcounted
  obtain rfl := ok_of_run_modify hmodify
  obtain ⟨rfl, rfl⟩ := ok_of_run_pure hret
  obtain ⟨hws, hsame⟩ := ok_of_run_write_element hfin hs hix hw
  have hmid := (indexWith_grants hfin _ _ _).1.sound hix hs
  have hl := ((indexWith_grants hfin _ _ _).1.precedes hix hs).trans
    ((write_leads _ _ _).precedes hw hmid)
  rw [← hsame] at hws ⊢
  exact (Chronicle.of_precedes hl hsame).element hws

end Elements

end Build

namespace Draft

/-- Indexed writes are written down as they are asked for, and no others if rules only build
expressions. -/
structure Records (d : Draft) (x : Operation) (log : List (NodeId × NodeId)) :
    Prop where
  chronicle : d.Chronicle log (d.after x)
  succeeds : ∀ addr v id, x = .request (.writeNext addr v) →
    ((Build.request (.writeNext addr v)).run d).1 = .ok id → log = [(addr, id)]
  fails : ∀ addr v error, x = .request (.writeNext addr v) →
    ((Build.request (.writeNext addr v)).run d).1 = .error error → log = []
  silent : (∀ addr v, x ≠ .request (.writeNext addr v)) →
    d.operators.Builds → log = []

/-- Nothing but indexed writes counts elements, if rules only build expressions. -/
theorem Reachable.keepsElements (h : draft.Reachable) (hbld : draft.operators.Builds)
    {x : Operation} (ho : ∀ addr v, x ≠ .request (.writeNext addr v)) :
    draft.KeepsElements (draft.after x) := by
  have hs := h.sound
  have hretains (hkept : draft.Retains (draft.after x)) :
      draft.KeepsElements (draft.after x) := (hkept hbld).2.elementsWritten
  cases x with
  | request w =>
    have hreq : (Build.request w).run draft =
        (performWith (finish (replaceWithin draft.options.replacementLimit)) w).run draft := by
      rw [Build.request, run_get_bind, perform_eq]
    cases w with
    | declare name t dir =>
      rw [Draft.after, hreq]
      exact declare_keepsElements _ _ _ _
    | write addr v =>
      rw [Draft.after, hreq]
      exact write_keepsElements _ _ _
    | writeNext addr v => exact absurd rfl (ho addr v)
    | apply | member | index | construct | read | constant | one =>
      exact hretains (serves_request.enlarges (by trivial) draft hs).2
  | declareArguments outputs updates inputs =>
    refine moves_forM (fun e _ s ↦ ?_) draft
    exact moves_bind (declare_keepsElements _ _ _ _) fun _ _ _ ↦ moves_pure _ _
  | addPreamble | addPostamble => rfl
  | differentiate addr id => exact hretains (differentiate_ponders _ _ _ hs h.derived).2
  | substitute bs id => exact hretains (enlarges (·.substitute _ _) _ hs).2
  | evaluate env id => exact hretains (enlarges (·.evaluate _ _) _ hs).2
  | evaluateWrites env => exact hretains (enlarges (·.evaluateWrites _) _ hs).2
  | total acc id =>
    exact hretains (Reverse.total_enlarges id ⟨draft, acc⟩ hs).2

theorem Reachable.exists_records (h : draft.Reachable) (x : Operation) :
    ∃ log, draft.Records x log := by
  obtain ⟨⟨log, hlog⟩, -⟩ := after_continues draft x h.sound h.derived
  by_cases ho : ∀ addr v, x ≠ .request (.writeNext addr v)
  · by_cases hbld : draft.operators.Builds
    · refine ⟨[], .of_precedes hlog.precedes (h.keepsElements hbld ho),
        fun addr v _ hsame ↦ absurd hsame (ho addr v), fun _ _ _ _ _ ↦ rfl,
        fun _ _ ↦ rfl⟩
    · exact ⟨log, hlog, fun addr v _ hsame ↦ absurd hsame (ho addr v),
        fun addr v _ hsame ↦ absurd hsame (ho addr v),
        fun _ hbuilds' ↦ absurd hbuilds' hbld⟩
  · obtain ⟨addr, v, rfl⟩ : ∃ addr v, x = .request (.writeNext addr v) := by
      simpa only [not_forall, not_not] using ho
    have hfin := finishes_replaceWithin draft.options.replacementLimit
    generalize hfinished : finish (replaceWithin draft.options.replacementLimit) = finish at hfin
    have hreq : (Build.request (.writeNext addr v)).run draft =
        (writeNextWith finish addr v).run draft := by
      rw [Build.request, run_get_bind, perform_eq, hfinished]
      rfl
    have haf : draft.after (.request (.writeNext addr v)) =
        ((writeNextWith finish addr v).run draft).2 := congrArg Prod.snd hreq
    rcases hr : (writeNextWith finish addr v).run draft with ⟨error | id, d'⟩
    · rw [hr] at hreq haf
      refine ⟨[], ⟨haf ▸ .of_precedes (haf ▸ hlog.precedes)
        (keepsElements_of_run_writeNextWith hfin hr), ?_, fun _ _ _ _ _ ↦ rfl,
        fun _ _ ↦ rfl⟩⟩
      intro addr' v' id hsame hok
      cases hsame
      rw [hreq] at hok
      cases hok
    · rw [hr] at hreq haf
      refine ⟨[(addr, id)], ⟨haf ▸ chronicle_of_run_writeNextWith hfin h.sound hr,
        ?_, ?_, fun hnot ↦ absurd rfl (hnot addr v)⟩⟩
      · intro addr' v' id' hsame hok
        cases hsame
        rw [hreq] at hok
        cases hok
        rfl
      · intro addr' v' error hsame he
        cases hsame
        rw [hreq] at he
        cases he

/-- A run of operations, with what each of them wrote to elements one after another. -/
theorem Reachable.exists_history (h : d.Reachable) (operations : List Operation) :
    ∃ history : List (List (NodeId × NodeId)), history.length = operations.length ∧
      d.Chronicle history.flatten (d.afterAll operations) ∧
      ∀ position x, operations[position]? = some x → ∃ log, history[position]? = some log ∧
          (d.afterAll (operations.take position)).Records x log := by
  induction operations generalizing d with
  | nil => exact ⟨[], rfl, .start, fun _ _ hno ↦ by cases hno⟩
  | cons x operations ih =>
    obtain ⟨log, hlog⟩ := h.exists_records x
    obtain ⟨history, hlen, hchronicle, hrecords⟩ := ih (h.operate x)
    refine ⟨log :: history, congrArg Nat.succ hlen, hlog.chronicle.trans hchronicle, ?_⟩
    rintro (_ | position) other ho
    · cases ho
      exact ⟨log, rfl, hlog⟩
    · exact hrecords position other ho

/-- An element of an address with a fixed number of elements is one of them. -/
theorem Sound.lt_length_of_writesElement (hs : d.Sound) {pos bound : Nat}
    (h : d.WritesElement id addr pos) {n : Node}
    (hn : d.graph.node? addr = some n) {defn : TypeDefinition}
    (hg : d.types.get? n.type = some defn) (hbd : defn.arity? = some bound) : pos < bound := by
  obtain ⟨element, tgt, _, _, htg, hix, -⟩ := h
  obtain ⟨before, hbf, hfi, -⟩ := hs.expression htg hix
  generalize tgt.isAddress = isAddress at hfi
  cases hfi with
  | index hba hdef hel =>
    cases (hbf.graph.node? hba).symm.trans hn
    obtain ⟨wider, hwd, hwn⟩ := hbf.types.get? hdef
    cases hwd.symm.trans hg
    exact lt_arity_of_slotType? (slotType?_of_element ((hwn.element pos).trans hel)) hbd

/-- Indexed writes fill the elements of an address in order. Over a run of operations there is a
history of the elements that each operation wrote one after another. An indexed write that succeeds
stands in it with the node that it yields; one that fails does not, and other operations do so only
where rules of operators ask for indexed writes. The writes to an address go to the elements that
follow those counted at the start, one after the other; as many more are counted at the end; and an
address with a fixed number of elements has no more writes than elements. -/
theorem Reachable.indexed_writes_in_order (h : draft.Reachable) (operations : List Operation) :
    ∃ history : List (List (NodeId × NodeId)),
      (∀ position operation, operations[position]? = some operation → ∃ log,
        history[position]? = some log ∧
          (draft.afterAll (operations.take position)).Records operation log) ∧
      history.length = operations.length ∧
      ∀ address,
        (∀ k id, (writesTo history.flatten address)[k]? = some id →
          (draft.afterAll operations).WritesElement id address (draft.elementCount address + k)) ∧
        (draft.afterAll operations).elementCount address =
          draft.elementCount address + (writesTo history.flatten address).length ∧
        ∀ node definition bound, (draft.afterAll operations).graph.node? address = some node →
          (draft.afterAll operations).types.get? node.type = some definition →
          definition.arity? = some bound → (writesTo history.flatten address).length ≤ bound := by
  obtain ⟨history, hlength, hchronicle, hrecords⟩ := h.exists_history operations
  refine ⟨history, hrecords, hlength, fun address ↦ ⟨fun k id hentry ↦
    hchronicle.writesElement hentry, hchronicle.elementCount_eq address, ?_⟩⟩
  intro node definition bound hnode hget hbound
  rcases hlast : (writesTo history.flatten address).length with _ | k
  · exact Nat.zero_le bound
  · have hentry := List.getElem?_eq_getElem (show k < (writesTo history.flatten address).length by
      omega)
    have hless := (h.afterAll operations).sound.lt_length_of_writesElement
      (hchronicle.writesElement hentry) hnode hget hbound
    omega

/-- A function whose output is a pair of integers. -/
def pairDraft : Draft :=
  (Draft.new 0 "f" .standard
    ⟨⟨"Pair", .template "array" ["int"] (some 2)⟩ :: TypeTable.scalars.newestFirst⟩
    .default).requested [.declare "a" "Pair" .output]

/-- Three indexed writes to the pair. -/
def fillPair : List Operation :=
  [1, 2, 3].map fun n ↦ .request (.writeNext ⟨0, 0⟩ (.int n))

theorem outcomes_fillPair : (((Build.request (.writeNext ⟨0, 0⟩ (.int 1))).run pairDraft).1,
      ((Build.request (.writeNext ⟨0, 0⟩ (.int 2))).run (pairDraft.afterAll (fillPair.take 1))).1,
      ((Build.request (.writeNext ⟨0, 0⟩ (.int 3))).run (pairDraft.afterAll (fillPair.take 2))).1,
      pairDraft.elementCount ⟨0, 0⟩) =
    (.ok ⟨0, 3⟩, .ok ⟨0, 6⟩, .error (.typing (.indexOutOfBounds "Pair" 2 2)), 0) := by cbv

/-- Two indexed writes fill a pair, and the third one fails. -/
theorem Reachable.indexed_writes_in_order_pair :
    pairDraft.Reachable ∧ ∃ history : List (List (NodeId × NodeId)),
      (∀ position operation, fillPair[position]? = some operation → ∃ log,
        history[position]? = some log ∧
          (pairDraft.afterAll (fillPair.take position)).Records operation log) ∧
      history = [[(⟨0, 0⟩, ⟨0, 3⟩)], [(⟨0, 0⟩, ⟨0, 6⟩)], []] ∧
      (pairDraft.afterAll fillPair).WritesElement ⟨0, 3⟩ ⟨0, 0⟩ 0 ∧
      (pairDraft.afterAll fillPair).WritesElement ⟨0, 6⟩ ⟨0, 0⟩ 1 ∧
      (pairDraft.afterAll fillPair).elementCount ⟨0, 0⟩ = 2 := by
  have hreachable : pairDraft.Reachable := .afterAll (.new ..) _
  have houtcomes := outcomes_fillPair
  simp only [Prod.mk.injEq] at houtcomes
  obtain ⟨hfirst, hsecond, hthird, hcount⟩ := houtcomes
  obtain ⟨history, hrecords, hlength, helements⟩ :=
    Reachable.indexed_writes_in_order hreachable fillPair
  obtain ⟨one, hone, honeLog⟩ := hrecords 0 _ rfl
  obtain ⟨two, htwo, htwoLog⟩ := hrecords 1 _ rfl
  obtain ⟨three, hthree, hthreeLog⟩ := hrecords 2 _ rfl
  obtain rfl := honeLog.succeeds _ _ _ rfl hfirst
  obtain rfl := htwoLog.succeeds _ _ _ rfl hsecond
  obtain rfl := hthreeLog.fails _ _ _ rfl hthird
  obtain ⟨a, b, c, rfl⟩ := List.length_eq_three.mp hlength
  obtain rfl := Option.some.inj hone
  obtain rfl := Option.some.inj htwo
  obtain rfl := Option.some.inj hthree
  obtain ⟨hwrites, hlast, -⟩ := helements ⟨0, 0⟩
  rw [hcount] at hwrites hlast
  exact ⟨hreachable, _, hrecords, rfl, hwrites 0 _ rfl, hwrites 1 _ rfl, hlast⟩

end Draft

end DiffGraph
