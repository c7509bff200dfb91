import DiffGraph.Proofs.Draft.Operands
import DiffGraph.Proofs.Draft.TypedSweeps

/-!
How gradients of numbers are collected. Amounts are added and totals are taken in any order. The
first total of a node is the sum of the amounts that were added to the node until then, from the
first to the last; it stands from then on, and nothing can be added any more. What is done with one
node does not concern another (`Draft.Reachable.totals_written_once`).

Amounts of other types may have no sum. Then there is no total, and the amounts are lost
(`Draft.Reachable.contributions_lost`).
-/

set_option autoImplicit false

namespace DiffGraph

open List Stateful Option Build Reverse

variable {d draft newer : Draft} {prec precision : Precision} {t : String}
  {id tgt c amount found : NodeId} {amounts : List NodeId} {sw sweep d' : Sweep}

section Sums

/-- The sum of numbers from the first to the last, and zero without any. -/
def Build.addUp (t : String) : List NodeId → Build NodeId
  | [] => zero t
  | first :: rest => rest.foldlM (fun sum c ↦ apply "+" [.node sum, .node c]) first

namespace Draft

/-- Two numbers are added, if any replacement is allowed. -/
theorem Supports.attains_add (hsup : d.Supports prec) (hs : d.Sound)
    (hlim : 1 ≤ d.options.replacementLimit) {a b : NodeId}
    (ha : d.HasType a prec.type) (hb : d.HasType b prec.type) :
    d.Attains (Build.apply "+" [.node a, .node b]) False fun d' sum ↦ d'.HasType sum prec.type := by
  obtain ⟨rest, hremaining⟩ := Nat.exists_eq_add_of_le' hlim
  obtain ⟨⟨pos, ov⟩, hrv⟩ := isSome_iff_exists.mp
    (Precision.resolve_arithmetic hsup.standard "+" mem_cons_self)
  have hoffers : ∀ operand ∈ [Operand.node a, .node b], d.Offers prec.type operand :=
    forall_mem_cons.mpr ⟨ha, forall_mem_singleton.mpr hb⟩
  refine Attains.after_ok ?_ (run_get d)
  rw [hremaining]
  refine attains_apply_operands hs hsup.calculates hoffers hrv
    fun {values d'} hl haf htaken hrv ↦ ?_
  have hvs := Represents.forall_holdsValue htaken
  have hsum : d'.Attains (Build.perform (rest + 1) (.apply "+" (values.map .node))) False _ :=
    attains_perform_once rest haf (hsup.later hl).calculates hvs hrv (by decide)
  refine hsum.mono id fun {last sum} hla _ hsimplifies ↦ ?_
  have hholds : last.HoldsValue sum prec.type := hsimplifies.inherits (fun hst ↦ hst.holdsValue)
      (fun hn ht haddr _ _ ↦ ⟨_, hn, ht, haddr⟩)
      (fun hminus ↦ absurd hminus (by decide)) fun v hv ↦ (hvs v hv).later hla
  obtain ⟨n, hn, ht, -⟩ := hholds
  exact ⟨n, hn, ht⟩

/-- The sum of numbers is a number, and it is what the contributions to a number sum up to. -/
theorem Supports.attains_addUp (hsup : d.Supports prec) (hs : d.Sound)
    (hlim : 1 ≤ d.options.replacementLimit) (hid : d.HasType id prec.type)
    (hamounts : ∀ c ∈ amounts, d.HasType c prec.type) :
    (Reverse.sumUp id amounts).run d = (Build.addUp prec.type amounts).run d ∧
      d.Attains (Build.addUp prec.type amounts) False fun d' total ↦
        d'.HasType total prec.type := by
  cases amounts with
  | nil =>
    obtain ⟨n, hn, ht⟩ := hid
    obtain ⟨defn, hg, -⟩ := hsup.calculates.zero
    refine ⟨?_, (attains_constant hs hg .zero).mono (fun h ↦ h) fun _ _ hst ↦ ?_⟩
    · rw [Reverse.sumUp, run_bind_of_ok (run_typeOf_of_some hn), ht]
      rfl
    · obtain ⟨m, hf, hfoundType, -⟩ := hst
      exact ⟨m, hf, hfoundType⟩
  | cons first rest =>
    obtain ⟨hfst, hrs⟩ := forall_mem_cons.mp hamounts
    clear hamounts hid
    rw [Reverse.sumUp, Build.addUp]
    induction rest generalizing d first with
    | nil => exact ⟨rfl, attains_pure hs hfst⟩
    | cons second rest ih =>
      obtain ⟨hsnd, hrs⟩ := forall_mem_cons.mp hrs
      obtain ⟨sum, d', hr, hgr, haf, hsum⟩ := (hsup.attains_add hs hlim hfst hsnd).exists_ok
      have hl := hgr.toPrecedes
      obtain ⟨hsame, hattains⟩ := ih (hsup.later hl) haf (hl.options ▸ hlim)
        sum hsum fun c ham ↦ (hrs c ham).later hl
      obtain ⟨total, last, hla, hgrows', hrs⟩ := hattains.exists_ok
      rw [foldlM_cons, foldlM_cons,
        run_bind_of_ok ((hsup.run_sum hfst hsnd).trans hr), run_bind_of_ok hr, hsame]
      exact ⟨rfl, .inl ⟨total, last, (run_bind_of_ok hr).trans hla, hgr.trans hgrows', hrs⟩⟩

end Draft

end Sums

/-- A use of an accumulator: an amount is added to the gradient of a node, or the total of a node is
taken. -/
inductive Call where
  | push (tgt c : NodeId)
  | total (id : NodeId)

namespace Call

/-- The node whose gradient is concerned. -/
def node : Call → NodeId
  | push tgt _ => tgt
  | total id => id

/-- The amount that is added to the gradient of the node, if this is what the call does. -/
def amountTo? (id : NodeId) : Call → Option NodeId
  | push tgt c => if tgt = id then some c else none
  | total _ => none

/-- What the call leaves behind, whether it fails or not. -/
def run (sw : Sweep) : Call → Sweep
  | push tgt c => ((Reverse.push tgt c).run sw).2
  | total id => ((Reverse.total id).run sw).2

/-- The call is about floating-point numbers of one type. -/
def Fits (d : Draft) : Call → Prop
  | push tgt c => ∃ prec : Precision, (prec = .double ∨ prec = .single) ∧
    d.HasType tgt prec.type ∧ d.HasType c prec.type
  | total id => ∃ prec : Precision, (prec = .double ∨ prec = .single) ∧
    d.HasType id prec.type

variable {call : Call}

theorem Fits.later (h : call.Fits d) (hl : d.Precedes newer) : call.Fits newer := by
  cases call with
  | push tgt c =>
    obtain ⟨prec, hpc, htg, ham⟩ := h
    exact ⟨prec, hpc, htg.later hl, ham.later hl⟩
  | total id =>
    obtain ⟨prec, hpc, hid⟩ := h
    exact ⟨prec, hpc, hid.later hl⟩

end Call

/-- Floating-point numbers can be added. -/
structure Draft.AddsFloats (d : Draft) : Prop where
  sound : d.Sound
  supports : ∀ {prec : Precision}, prec = .double ∨ prec = .single →
    d.Supports prec
  limit : 1 ≤ d.options.replacementLimit

theorem Draft.AddsFloats.later (h : d.AddsFloats)
    (hl : d.Precedes newer) (hs : newer.Sound) : newer.AddsFloats :=
  ⟨hs, fun hpc ↦ (h.supports hpc).later hl, hl.options ▸ h.limit⟩

namespace Sweep

variable {calls : List Call} {call : Call}

/-- One call after another. -/
def play (sw : Sweep) (calls : List Call) : Sweep := calls.foldl Call.run sw

/-- The calls are about numbers of the draft as it is when they are made. -/
def Admits : Sweep → List Call → Prop
  | _, [] => True
  | sweep, call :: calls => call.Fits sweep.draft ∧ (call.run sweep).Admits calls

/-- What the calls that were made have left behind. -/
structure Collects (calls : List Call) (sw : Sweep) : Prop where
  adds : sw.draft.AddsFloats
  fits : ∀ call ∈ calls, call.Fits sw.draft
  totals : ∀ id, sw.accumulator.totals[id]? = none ↔ .total id ∉ calls
  pushed : ∀ {id c}, c ∈ sw.accumulator.pending id → .push id c ∈ calls
  pending : ∀ {id}, (∀ n, sw.draft.graph.node? id = some n → n.constant? = none) →
    .total id ∉ calls → sw.accumulator.pending id = calls.filterMap (Call.amountTo? id)

theorem Collects.run_total (h : sw.Collects calls) (hpc : prec = .double ∨ prec = .single)
    (hid : sw.draft.HasType id prec.type) (hopen : sw.accumulator.totals[id]? = none) :
    ∃ m d', (Reverse.total id).run sw = (.ok m, ⟨d', sw.accumulator.close id m⟩) ∧
      (Build.addUp prec.type (sw.accumulator.pending id)).run sw.draft =
        (.ok m, d') ∧ sw.draft.Precedes d' ∧ d'.Sound := by
  have hamounts : ∀ c ∈ sw.accumulator.pending id, sw.draft.HasType c prec.type := by
    intro c ham
    obtain ⟨other, -, htg, ht⟩ := h.fits _ (h.pushed ham)
    rw [← htg.unique hid]
    exact ht
  obtain ⟨hsame, hattains⟩ :=
    (h.adds.supports hpc).attains_addUp h.adds.sound h.adds.limit hid hamounts
  obtain ⟨m, d', hr, hgr, haf, -⟩ := hattains.exists_ok
  exact ⟨m, d', Reverse.run_total hopen (hsame.trans hr), hr, hgr.toPrecedes, haf⟩

/-- What a call changes after others. -/
inductive Changes (calls : List Call) (sw : Sweep) : Call → Sweep → Prop
  | refused {tgt c : NodeId} (hcl : .total tgt ∈ calls) :
      Changes calls sw (.push tgt c) sw
  | dropped {tgt c : NodeId} {n : Node}
      (hn : sw.draft.graph.node? tgt = some n) (hc : n.constant? ≠ none) :
      Changes calls sw (.push tgt c) sw
  | added {tgt c : NodeId} (hopen : .total tgt ∉ calls) :
      Changes calls sw (.push tgt c) ⟨sw.draft, sw.accumulator.add tgt c⟩
  | known {id : NodeId} (hcl : .total id ∈ calls) : Changes calls sw (.total id) sw
  | closed {id m : NodeId} {d' : Draft} (hopen : .total id ∉ calls)
      (hl : sw.draft.Precedes d') (hs : d'.Sound) :
      Changes calls sw (.total id) ⟨d', sw.accumulator.close id m⟩

theorem Collects.changes (h : sw.Collects calls) (hfi : call.Fits sw.draft) :
    Changes calls sw call (call.run sw) := by
  cases call with
  | push tgt c =>
    obtain ⟨prec, -, ⟨n, hn, -⟩, ⟨other, ho, -⟩⟩ := hfi
    have ham := Graph.owns_of_node? ho
    rw [Call.run]
    by_cases hopen : sw.accumulator.totals[tgt]? = none
    · rw [run_push hn ham hopen]
      split
      next hc => exact .dropped hn (isSome_iff_ne_none.mp hc)
      next => exact .added ((h.totals tgt).mp hopen)
    · rw [run_push_finalized (Graph.owns_of_node? hn) ham hopen]
      exact .refused (not_not.mp (mt (h.totals tgt).mpr hopen))
  | total id =>
    obtain ⟨prec, hpc, hid⟩ := hfi
    rw [Call.run]
    cases hkn : sw.accumulator.totals[id]? with
    | some k =>
      rw [run_total_known hkn]
      exact .known (not_not.mp (mt (h.totals id).mpr (by rw [hkn]; exact some_ne_none _)))
    | none =>
      obtain ⟨m, d', hr, -, hl, hs⟩ := h.run_total hpc hid hkn
      rw [hr]
      exact .closed ((h.totals id).mp hkn) hl hs

/-- Calls about one node leave the gradients of other nodes alone. -/
theorem Changes.others (h : Changes calls sw call d') (hne : call.node ≠ id) :
    d'.accumulator.pending id = sw.accumulator.pending id ∧
      d'.accumulator.totals[id]? = sw.accumulator.totals[id]? := by
  cases h with
  | refused | dropped | known => exact ⟨rfl, rfl⟩
  | added => exact ⟨(Accumulator.pending_add ..).trans (if_neg hne), rfl⟩
  | closed =>
    exact ⟨(Accumulator.pending_close ..).trans (if_neg hne),
      (Accumulator.totals_close ..).trans (if_neg hne)⟩

/-- One more call. -/
theorem Collects.run (h : sw.Collects calls) (hfi : call.Fits sw.draft) :
    (call.run sw).Collects (calls ++ [call]) := by
  have hchanges := h.changes hfi
  generalize call.run sw = d' at hchanges
  have hfit (hl : sw.draft.Precedes d'.draft) : ∀ other ∈ calls ++ [call], other.Fits d'.draft := by
    intro other ho
    rcases mem_append.mp ho with ho | ho
    · exact (h.fits other ho).later hl
    · exact mem_singleton.mp ho ▸ hfi.later hl
  have hold {id : NodeId} (hopen : .total id ∉ calls ++ [call]) : .total id ∉ calls :=
    fun hm ↦ hopen (mem_append_left _ hm)
  have hamounts (id : NodeId) : (calls ++ [call]).filterMap (Call.amountTo? id) =
      calls.filterMap (Call.amountTo? id) ++ (call.amountTo? id).toList := by
    rw [filterMap_append]
    cases ham : call.amountTo? id <;> simp [ham]
  have hpushed {id c : NodeId} (ham : c ∈ sw.accumulator.pending id) :
      .push id c ∈ calls ++ [call] := mem_append_left _ (h.pushed ham)
  cases hchanges with
  | @refused tgt c hcl =>
    refine ⟨h.adds, hfit (.refl _), fun id ↦ by simp [h.totals], hpushed, fun {id} hvar hopen ↦ ?_⟩
    have hne : tgt ≠ id := fun heq ↦ hold hopen (heq ▸ hcl)
    rw [h.pending hvar (hold hopen), hamounts, Call.amountTo?, if_neg hne]
    exact (append_nil _).symm
  | @dropped tgt c constant hc hv =>
    refine ⟨h.adds, hfit (.refl _), fun id ↦ by simp [h.totals], hpushed, fun {id} hvar hopen ↦ ?_⟩
    have hne : tgt ≠ id := by
      rintro rfl
      exact hv (hvar _ hc)
    rw [h.pending hvar (hold hopen), hamounts, Call.amountTo?, if_neg hne]
    exact (append_nil _).symm
  | @added tgt c hopen =>
    refine ⟨h.adds, hfit (.refl _), fun id ↦ by simp [Accumulator.totals_add, h.totals],
      fun {id other} ho ↦ ?_, fun {id} hvar hopen ↦ ?_⟩
    · rw [Accumulator.pending_add] at ho
      split at ho
      next heq =>
        rcases mem_append.mp ho with ho | ho
        · exact hpushed ho
        · simp [heq, mem_singleton.mp ho]
      next => exact hpushed ho
    · rw [Accumulator.pending_add, hamounts, Call.amountTo?, h.pending hvar (hold hopen)]
      split
      · rfl
      · exact (append_nil _).symm
  | @known id hcl =>
    refine ⟨h.adds, hfit (.refl _), fun other ↦ ?_, hpushed, fun {other} hvar hopen ↦ ?_⟩
    · rw [h.totals, mem_append, mem_singleton, not_or]
      refine ⟨fun hopen ↦ ⟨hopen, ?_⟩, And.left⟩
      rintro ⟨⟩
      exact hopen hcl
    · rw [h.pending hvar (hold hopen), hamounts]
      exact (append_nil _).symm
  | @closed id m d hopen hl hs =>
    refine ⟨h.adds.later hl hs, hfit hl, fun other ↦ ?_, fun {other c} ham ↦ ?_,
      fun {other} hvar hopen ↦ ?_⟩
    · rw [Accumulator.totals_close]
      split
      next heq => simp [heq]
      next hne => simp [h.totals, Ne.symm hne]
    · rw [Accumulator.pending_close] at ham
      split at ham
      · cases ham
      · exact hpushed ham
    · have hne : id ≠ other := by
        rintro rfl
        exact hopen (mem_append_right _ mem_cons_self)
      have hopen := hold hopen
      rw [Accumulator.pending_close, if_neg hne, hamounts,
        h.pending (fun n hn ↦ hvar n (hl.graph.node? hn)) hopen]
      exact (append_nil _).symm

/-- All calls that are made one after another. -/
theorem Collects.play (h : sw.Collects calls) {others : List Call} (hos : sw.Admits others) :
    (sw.play others).Collects (calls ++ others) := by
  induction others generalizing sw calls with
  | nil => rwa [append_nil]
  | cons call others ih =>
    obtain ⟨hfi, hos⟩ := hos
    rw [← singleton_append, ← append_assoc]
    exact ih (h.run hfi) hos

theorem Admits.split {others : List Call} (h : sw.Admits (calls ++ others)) :
    sw.Admits calls ∧ (sw.play calls).Admits others := by
  induction calls generalizing sw with
  | nil => exact ⟨trivial, h⟩
  | cons call calls ih => exact ⟨⟨h.1, (ih h.2).1⟩, (ih h.2).2⟩

theorem Changes.total_stands (h : Changes calls sw call d') (hcollects : sw.Collects calls)
    (hkn : sw.accumulator.totals[id]? = some found) :
    d'.accumulator.totals[id]? = some found := by
  cases h with
  | refused | dropped | added | known => exact hkn
  | @closed other _ _ hopen =>
    have hne : other ≠ id := by
      rintro rfl
      cases ((hcollects.totals other).mpr hopen).symm.trans hkn
    exact ((Accumulator.totals_close ..).trans (if_neg hne)).trans hkn

/-- A total stands. -/
theorem Collects.total_stands (h : sw.Collects calls) {others : List Call}
    (hos : sw.Admits others) (hkn : sw.accumulator.totals[id]? = some found) :
    (sw.play others).accumulator.totals[id]? = some found := by
  induction others generalizing sw calls with
  | nil => exact hkn
  | cons call others ih =>
    obtain ⟨hfi, hos⟩ := hos
    exact ih (h.run hfi) hos ((h.changes hfi).total_stands h hkn)

/-- A total that is taken is known afterwards. -/
theorem Collects.total_known (h : sw.Collects calls) (hfi : (Call.total id).Fits sw.draft) :
    ∃ found, ((Reverse.total id).run sw).1 = .ok found ∧
      ((Call.total id).run sw).accumulator.totals[id]? = some found := by
  obtain ⟨prec, hpc, hid⟩ := hfi
  rw [Call.run]
  cases hkn : sw.accumulator.totals[id]? with
  | some found =>
    rw [run_total_known hkn]
    exact ⟨found, rfl, hkn⟩
  | none =>
    obtain ⟨found, d', hr, -⟩ := h.run_total hpc hid hkn
    rw [hr]
    exact ⟨found, rfl, (Accumulator.totals_close ..).trans (if_pos rfl)⟩

end Sweep

namespace Draft

theorem Reachable.collects (h : d.Reachable) (hopr : d.operators = .standard)
    (hts : d.types.Grown) (hlim : 1 ≤ d.options.replacementLimit) :
    Sweep.Collects [] ⟨d, .empty⟩ where
  adds := by
    refine ⟨h.sound, fun {prec} hpc ↦ ⟨hopr, hpc, ?_⟩, hlim⟩
    have hnb : prec.type ∈ TypeTable.numbers ∧ prec.type ≠ "int" := by
      rcases hpc with rfl | rfl <;> decide
    obtain ⟨defn, kind, hg, hsh, -, hfloat⟩ := hts.number hnb.1
    exact ⟨defn, kind, hg, hsh, hfloat hnb.2⟩
  fits := forall_mem_nil _
  totals id := by simp [Accumulator.totals_empty]
  pushed ham := by simp [Accumulator.pending_empty] at ham
  pending _ _ := Accumulator.pending_empty _

/-- Gradients of floating-point numbers are summed up once. After any calls, the first total of a
node that is not constant is the sum of the amounts that were added to it, from the first to the
last; every later total is the same and changes nothing; nothing is added to it any more; and no
call that is about another node changes what the node has collected. One replacement is enough. -/
theorem Reachable.totals_written_once (hdraft : draft.Reachable)
    (hoperators : draft.operators = .standard) (htypes : draft.types.Grown)
    (hlimit : 1 ≤ draft.options.replacementLimit) {calls : List Call}
    (hcalls : Sweep.Admits ⟨draft, .empty⟩ calls) (hsweep : Sweep.play ⟨draft, .empty⟩ calls = sweep)
    (hprecision : precision = .double ∨ precision = .single)
    (hid : sweep.draft.HasType id precision.type) :
    (.total id ∉ calls →
      (∀ node, sweep.draft.graph.node? id = some node → node.constant? = none) →
        ∃ found after, (Reverse.total id).run sweep = (.ok found, after) ∧
          (Build.addUp precision.type (calls.filterMap (Call.amountTo? id))).run sweep.draft =
            (.ok found, after.draft)) ∧
    (∀ earlier later, calls = earlier ++ .total id :: later → ∃ found,
      ((Reverse.total id).run (Sweep.play ⟨draft, .empty⟩ earlier)).1 = .ok found ∧
        (Reverse.total id).run sweep = (.ok found, sweep)) ∧
    (.total id ∈ calls → ∀ amount, sweep.draft.HasType amount precision.type →
      (Reverse.push id amount).run sweep =
        (.error (.gradientFinalized (sweep.draft.describe id)), sweep)) ∧
    ∀ call : Call, call.Fits sweep.draft → call.node ≠ id →
      (call.run sweep).accumulator.pending id = sweep.accumulator.pending id ∧
        (call.run sweep).accumulator.totals[id]? = sweep.accumulator.totals[id]? := by
  subst hsweep
  have hstart := hdraft.collects hoperators htypes hlimit
  have hcollects := hstart.play hcalls
  rw [List.nil_append] at hcollects
  refine ⟨fun hopen hvariable ↦ ?_, fun earlier later heq ↦ ?_, fun hclosed amount hamount ↦ ?_,
    fun call hfits hne ↦ (hcollects.changes hfits).others hne⟩
  · obtain ⟨found, after, hrun, hsum, -⟩ :=
      hcollects.run_total hprecision hid ((hcollects.totals id).mpr hopen)
    rw [hcollects.pending hvariable hopen] at hsum
    exact ⟨found, _, hrun, hsum⟩
  · subst heq
    obtain ⟨hearlier, hfits, hlater⟩ := hcalls.split
    have hbefore := hstart.play hearlier
    obtain ⟨found, hrun, hknown⟩ := hbefore.total_known hfits
    refine ⟨found, hrun, Reverse.run_total_known ?_⟩
    rw [Sweep.play, List.foldl_append]
    exact (hbefore.run hfits).total_stands hlater hknown
  · obtain ⟨node, hnode, -⟩ := hid
    obtain ⟨other, hother, -⟩ := hamount
    exact Reverse.run_push_finalized (Graph.owns_of_node? hnode) (Graph.owns_of_node? hother)
      fun hopen ↦ (hcollects.totals id).mp hopen hclosed

/-- What the identity reads collects the read and the argument, which are added. -/
theorem Reachable.totals_written_once_identity : ∃ (draft : Draft) (sweep : Sweep),
    draft.Reachable ∧ draft.HasType ⟨0, 2⟩ "double" ∧
      Sweep.play ⟨draft, .empty⟩ [.push ⟨0, 2⟩ ⟨0, 2⟩, .push ⟨0, 2⟩ ⟨0, 1⟩] = sweep ∧
      ∃ found after, (Reverse.total ⟨0, 2⟩).run sweep = (.ok found, after) ∧
        (Build.addUp "double" [⟨0, 2⟩, ⟨0, 1⟩]).run sweep.draft = (.ok found, after.draft) := by
  obtain ⟨draft, -, hdraft, hlists, -⟩ := exists_adjoint_identity
  obtain ⟨read, hread, hreadType, hreadKind, -⟩ := hlists.node?_blank 2 rfl
  obtain ⟨x, hx, hxType, -⟩ := hlists.node?_blank 1 rfl
  have htypes : draft.types.Grown := by rw [hlists.types]; exact .scalars
  have hlimit : 1 ≤ draft.options.replacementLimit := by rw [hlists.options]; decide
  have hfirst : (Call.push ⟨0, 2⟩ ⟨0, 2⟩).Fits draft :=
    ⟨.double, .inl rfl, ⟨read, hread, hreadType⟩, ⟨read, hread, hreadType⟩⟩
  have hsecond : (Call.push ⟨0, 2⟩ ⟨0, 1⟩).Fits draft :=
    ⟨.double, .inl rfl, ⟨read, hread, hreadType⟩, ⟨x, hx, hxType⟩⟩
  have hkeeps {sweep after : Sweep} {calls : List Call} {amount : NodeId}
      (h : Sweep.Changes calls sweep (.push ⟨0, 2⟩ amount) after) : after.draft = sweep.draft := by
    cases h <;> rfl
  have hstart := hdraft.collects hlists.operators htypes hlimit
  have hmiddle := hkeeps (hstart.changes hfirst)
  have hsecond : (Call.push ⟨0, 2⟩ ⟨0, 1⟩).Fits
      ((Call.push ⟨0, 2⟩ ⟨0, 2⟩).run ⟨draft, .empty⟩).draft := hmiddle ▸ hsecond
  have hlast := (hkeeps ((hstart.run hfirst).changes hsecond)).trans hmiddle
  have hcalls : Sweep.Admits ⟨draft, .empty⟩ [.push ⟨0, 2⟩ ⟨0, 2⟩, .push ⟨0, 2⟩ ⟨0, 1⟩] :=
    ⟨hfirst, hsecond, trivial⟩
  have hid : ((Call.push ⟨0, 2⟩ ⟨0, 1⟩).run ((Call.push ⟨0, 2⟩ ⟨0, 2⟩).run
      ⟨draft, .empty⟩)).draft.HasType ⟨0, 2⟩ Precision.double.type :=
    ⟨read, hlast ▸ hread, hreadType⟩
  obtain ⟨htotal, -⟩ := hdraft.totals_written_once hlists.operators htypes hlimit hcalls rfl
    (.inl rfl) hid
  refine ⟨draft, _, hdraft, ⟨read, hread, hreadType⟩, rfl, htotal (by simp) fun node hnode ↦ ?_⟩
  cases hread.symm.trans (hlast ▸ hnode)
  rw [Node.constant?, hreadKind]

end Draft

section Failures

/-- Without contributions, the total is the zero of the type. -/
theorem Reverse.run_sumUp_nil {n : Node} {defn : TypeDefinition}
    (hn : draft.graph.node? id = some n) (hdef : draft.types.get? n.type = some defn) :
    (sumUp id []).run draft =
      (Build.intern n.type (.constant (defn.normalize .zero)) false).run draft := by
  rw [sumUp, run_bind_of_ok (run_typeOf_of_some hn), Build.zero, Build.constant,
    run_bind_of_ok (run_lookupType_of_some hdef)]

/-- If there is no such zero, nothing changes. -/
theorem Reverse.eq_of_run_sumUp_nil {error : Error} {d' : Draft}
    (h : (sumUp id []).run draft = (.error error, d')) : d' = draft := by
  rcases error_of_run_bind h with ht | ⟨t, s, ht, hz⟩
  · rcases error_of_run_bind ht with hn | ⟨n, s, -, hpure⟩
    · rw [Build.node, run_query] at hn
      exact (Prod.mk.inj hn).2.symm
    · cases hpure
  · obtain ⟨-, rfl⟩ := ok_of_run_typeOf ht
    rcases error_of_run_bind hz with hlk | ⟨defn, s, hlk, hintern⟩
    · rw [Build.lookupType, run_query] at hlk
      exact (Prod.mk.inj hlk).2.symm
    · rw [run_intern (forall_mem_nil _)] at hintern
      cases hintern

namespace Draft

variable {accumulator : Accumulator} {error : Error}

/-- A total that fails leaves all totals as they were, and all contributions to other nodes, but the
contributions to the node are gone. If there were none, the next attempt fails like the first.
Otherwise it finds nothing to sum up: it succeeds with the zero of the type, and this total stands. -/
theorem Reachable.contributions_lost (hdraft : draft.Reachable)
    (hrun : (Reverse.total id).run ⟨draft, accumulator⟩ = (.error error, sweep)) :
    sweep.accumulator.totals = accumulator.totals ∧
    (∀ other, sweep.accumulator.pending other =
      if id = other then [] else accumulator.pending other) ∧
    (accumulator.pending id = [] →
      sweep.draft = draft ∧ ((Reverse.total id).run sweep).1 = .error error) ∧
    ∀ node, draft.graph.node? id = some node → (draft.types.get? node.type).isSome = true →
      accumulator.pending id ≠ [] ∧ ∃ definition zero found last,
        sweep.draft.types.get? node.type = some definition ∧
        (Reverse.total id).run sweep = (.ok zero, last) ∧
        last.accumulator.totals[id]? = some zero ∧
        last.draft.graph.node? zero = some found ∧ found.type = node.type ∧
        found.kind = .constant (definition.normalize .zero) := by
  have hleads := (Reverse.total_enlarges id ⟨draft, accumulator⟩).leads
  rw [hrun] at hleads
  have hsteps := hleads hdraft.sound
  obtain ⟨newer, hsum, rfl⟩ := Reverse.error_of_run_total hrun
  dsimp only at hsum
  have hopen : accumulator.totals[id]? = none := by
    by_contra hknown
    obtain ⟨known, hknown⟩ := Option.ne_none_iff_exists'.mp hknown
    cases hrun.symm.trans (Reverse.run_total_known hknown)
  have hgone : (accumulator.take id).pending id = [] :=
    (accumulator.pending_take id id).trans (if_pos rfl)
  have hnothing {last : Draft} {outcome : Except Error NodeId}
      (h : (Reverse.sumUp id []).run newer = (outcome, last)) :
      (Reverse.sumUp id ((accumulator.take id).pending id)).run newer = (outcome, last) := hgone ▸ h
  refine ⟨rfl, accumulator.pending_take id, fun hnone ↦ ?_, fun node hnode htype ↦ ?_⟩
  · rw [hnone] at hsum
    obtain rfl := Reverse.eq_of_run_sumUp_nil hsum
    have hagain : (Reverse.total id).run ⟨newer, accumulator.take id⟩ = _ :=
      Reverse.run_total_of_error hopen (hnothing hsum)
    exact ⟨rfl, congrArg Prod.fst hagain⟩
  · obtain ⟨definition, hdefinition⟩ :=
      Option.isSome_iff_exists.mp ((hsteps.precedes.types.isSome_get? _).trans htype)
    have owned : ∀ operand ∈ (NodeKind.constant (definition.normalize .zero)).operands,
      newer.graph.Owns operand := List.forall_mem_nil _
    have hzero := (Reverse.run_sumUp_nil (hsteps.precedes.graph.node? hnode) hdefinition).trans
      (Build.run_intern owned)
    obtain ⟨found, hfound, hfoundType, hkind⟩ :=
      Graph.node?_intern (hdraft.sound.steps hsteps).interned owned
    refine ⟨fun hnone ↦ ?_, definition, _, found, _, hdefinition,
      Reverse.run_total hopen (hnothing hzero), ?_, hfound, hfoundType, hkind⟩
    · obtain rfl := Reverse.eq_of_run_sumUp_nil (hnone ▸ hsum)
      cases hzero.symm.trans (hnone ▸ hsum)
    · exact (Accumulator.totals_close _ id _ id).trans (if_pos rfl)

/-- A function of a truth value. -/
def flagDraft : Draft := blank.requested [.declare "p" "bool" .input]

theorem lists_flag :
    blank.Lists flagDraft [("bool", .argument "p" .input, true)] [("p", ⟨0, 0⟩)] [] :=
  .of_listing (reachable_requested _) (by cbv)

theorem run_sum_flag : (Build.sum ⟨0, 0⟩ ⟨0, 0⟩).run flagDraft =
    (.error (.noOverload "+" ["bool", "bool"]), flagDraft) := by cbv

/-- Two contributions to a truth value have no total. -/
theorem exists_failed_total : ∃ (d : Draft) (acc : Accumulator) (p : Node),
    d.Reachable ∧ d.graph.node? ⟨0, 0⟩ = some p ∧
    d.types.get? p.type = some ⟨"bool", .scalar .boolean⟩ ∧
    (do Reverse.push ⟨0, 0⟩ ⟨0, 0⟩; Reverse.push ⟨0, 0⟩ ⟨0, 0⟩ : Reverse Unit).run
      ⟨d, .empty⟩ = (.ok ⟨⟩, ⟨d, acc⟩) ∧
    acc.totals[(⟨0, 0⟩ : NodeId)]? = none ∧
    acc.pending ⟨0, 0⟩ = [⟨0, 0⟩, ⟨0, 0⟩] ∧
    (Reverse.total ⟨0, 0⟩).run ⟨d, acc⟩ =
      (.error (.noOverload "+" ["bool", "bool"]), ⟨d, acc.take ⟨0, 0⟩⟩) := by
  have hp := lists_flag
  obtain ⟨p, hn, ht, hk, -⟩ := hp.node?_blank 0 rfl
  have hadd (amounts : Accumulator) : (if p.constant?.isSome then amounts
      else amounts.add ⟨0, 0⟩ ⟨0, 0⟩) = amounts.add ⟨0, 0⟩ ⟨0, 0⟩ := by
    rw [Node.constant?, hk]
    rfl
  have hpen : ((Accumulator.empty.add ⟨0, 0⟩ ⟨0, 0⟩).add ⟨0, 0⟩ ⟨0, 0⟩).pending ⟨0, 0⟩ =
      [⟨0, 0⟩, ⟨0, 0⟩] := by
    simp [Accumulator.pending_add, Accumulator.pending_empty]
  have hopen := Accumulator.totals_empty ⟨0, 0⟩
  have how := Graph.owns_of_node? hn
  refine ⟨_, (Accumulator.empty.add ⟨0, 0⟩ ⟨0, 0⟩).add ⟨0, 0⟩ ⟨0, 0⟩, p, hp.reachable,
    hn, by rw [hp.types, ht]; rfl, ?_, hopen, hpen, run_total_of_error hopen ?_⟩
  · rw [run_bind_of_ok (run_push hn how hopen), hadd, run_push hn how hopen, hadd]
  · rw [hpen, Reverse.sumUp, foldlM_cons]
    exact run_bind_of_error run_sum_flag

/-- Both contributions are lost, and the next total is false. -/
theorem Reachable.contributions_lost_bool : ∃ (draft : Draft) (accumulator : Accumulator)
    (sweep : Sweep), draft.Reachable ∧ accumulator.pending ⟨0, 0⟩ = [⟨0, 0⟩, ⟨0, 0⟩] ∧
      (Reverse.total ⟨0, 0⟩).run ⟨draft, accumulator⟩ =
        (.error (.noOverload "+" ["bool", "bool"]), sweep) ∧
      sweep.accumulator.pending ⟨0, 0⟩ = [] ∧ ∃ zero found last,
        (Reverse.total ⟨0, 0⟩).run sweep = (.ok zero, last) ∧
        last.draft.graph.node? zero = some found ∧ found.kind = .constant (.bool false) := by
  obtain ⟨draft, accumulator, p, hdraft, hnode, hbool, -, -, hpending, hrun⟩ := exists_failed_total
  obtain ⟨-, hlost, -, hagain⟩ := hdraft.contributions_lost hrun
  obtain ⟨-, definition, zero, found, last, hdefinition, hzero, -, hfound, -, hkind⟩ :=
    hagain p hnode (hbool ▸ rfl)
  cases hbool.symm.trans hdefinition
  exact ⟨draft, accumulator, _, hdraft, hpending, hrun, (hlost _).trans (if_pos rfl), zero, found, last,
    hzero, hfound, hkind⟩

/-- Contributions that were made do not survive a total that fails, and the next total succeeds. -/
theorem exists_lost_contributions : ∃ (draft : Draft) (accumulator : Accumulator) (sweep : Sweep)
    (error : Error), draft.Reachable ∧
    (do Reverse.push ⟨0, 0⟩ ⟨0, 0⟩; Reverse.push ⟨0, 0⟩ ⟨0, 0⟩ : Reverse Unit).run
      ⟨draft, .empty⟩ = (.ok ⟨⟩, ⟨draft, accumulator⟩) ∧
    (Reverse.total ⟨0, 0⟩).run ⟨draft, accumulator⟩ = (.error error, sweep) ∧
    sweep.accumulator.pending ⟨0, 0⟩ ≠ accumulator.pending ⟨0, 0⟩ ∧
    ∃ zero last, (Reverse.total ⟨0, 0⟩).run sweep = (.ok zero, last) := by
  obtain ⟨draft, accumulator, p, hdraft, hnode, hbool, hpushed, hopen, hpending, hrun⟩ :=
    exists_failed_total
  have hgone : (accumulator.take ⟨0, 0⟩).pending ⟨0, 0⟩ = [] :=
    (accumulator.pending_take _ _).trans (if_pos rfl)
  have hzero := (Reverse.run_sumUp_nil hnode hbool).trans (Build.run_intern (List.forall_mem_nil _))
  refine ⟨draft, accumulator, _, _, hdraft, hpushed, hrun, ?_, _, _,
    Reverse.run_total hopen (hgone ▸ hzero)⟩
  dsimp only
  rw [hgone, hpending]
  exact fun h ↦ by cases h

end Draft

end Failures

end DiffGraph
