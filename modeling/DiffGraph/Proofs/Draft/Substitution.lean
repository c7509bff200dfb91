import DiffGraph.Proofs.Draft.Operations
import DiffGraph.Proofs.Graph.Closure

/-!
Substitution, part by part. The parts of an expression are gone through in the order in which they
were stored, so what a part is made of comes before it. Whatever one step of the walk preserves holds
at its end (`ok_of_run_substituteParts`), and if every part can be made once its operands are, the
whole expression can (`run_substitute_of_parts`).
-/

set_option autoImplicit false

namespace DiffGraph

open List Stateful Build

/-- Arguments are bound to constants, one after another. -/
def Build.bindEach (k : Bindings) (env : List (String × Value)) : Build Bindings :=
  env.foldlM (fun bs (name, v) ↦ do
    let addr ← argument name
    return bs.insert addr (← constant (← typeOf addr) v)) k

/-- What some parts of an expression become, one after another. -/
def Build.substituteParts (bs : Bindings) (parts : List NodeId) (k : Bindings) :
    Build Bindings :=
  parts.foldlM (fun k part ↦ do
    return k.insert part (← substituteNode bs k part)) k

namespace Draft

variable {start now d' last : Draft} {bs k results : Bindings} {root id : NodeId}
  {done rest : List NodeId}

section Binding

variable {env : List (String × Value)} {name : String} {v : Value} {addr : NodeId}
  {n : Node}

theorem run_bindEach_cons (hlk : start.arguments.lookup name = some addr)
    (hn : start.graph.node? addr = some n)
    (hc : (Build.constant n.type v).run start = (.ok id, now)) :
    (Build.bindEach k ((name, v) :: env)).run start =
      (Build.bindEach (k.insert addr id) env).run now := by
  have harg : (Build.argument name).run start = (.ok addr, start) := by
    rw [Build.argument, run_query, Draft.argument, hlk]
  refine run_bind_of_ok ?_
  rw [run_bind_of_ok harg, run_bind_of_ok (run_typeOf_of_some hn), run_bind_of_ok hc]
  rfl

theorem ok_of_run_bindEach_cons
    (h : (Build.bindEach k ((name, v) :: env)).run start = (.ok bs, d')) :
    ∃ addr n id now, start.arguments.lookup name = some addr ∧ start.graph.node? addr = some n ∧
        (Build.constant n.type v).run start = (.ok id, now) ∧
          (Build.bindEach (k.insert addr id) env).run now = (.ok bs, d') := by
  obtain ⟨next, s, hstep, hrs⟩ := ok_of_run_foldlM_cons h
  obtain ⟨addr, _, harg, hty⟩ := ok_of_run_bind hstep
  obtain ⟨hf, rfl⟩ := ok_of_run_query harg
  obtain ⟨t, _, ht, hbd⟩ := ok_of_run_bind hty
  obtain ⟨⟨n, hn, rfl⟩, rfl⟩ := ok_of_run_typeOf ht
  obtain ⟨id, _, hc, hinsert⟩ := ok_of_run_bind hbd
  obtain ⟨rfl, rfl⟩ := ok_of_run_pure hinsert
  refine ⟨addr, n, id, _, ?_, hn, hc, hrs⟩
  unfold Draft.argument at hf
  split at hf
  next found hlk => exact Except.ok.inj hf ▸ hlk
  next => cases hf

end Binding

theorem run_substitute (how : start.graph.Owns root) : (Build.substitute bs root).run start = (do
      return (← Build.substituteParts bs
        (start.graph.closure Node.isComputed root) ∅).getD root root : Build NodeId).run start := by
  rw [Build.substitute, run_bind_of_ok (run_checkOwned_of_owns how), run_get_bind]
  rfl

theorem ok_of_run_substitute (h : (Build.substitute bs root).run start = (.ok id, d')) :
    start.graph.Owns root ∧ ∃ results, id = results.getD root root ∧
      (Build.substituteParts bs (start.graph.closure Node.isComputed root) ∅).run start =
        (.ok results, d') := by
  obtain ⟨_, s, hchecked, -⟩ := ok_of_run_bind h
  obtain ⟨how, -⟩ := ok_of_run_checkOwned hchecked
  rw [run_substitute how] at h
  obtain ⟨results, s, hps, hret⟩ := ok_of_run_bind h
  obtain ⟨rfl, rfl⟩ := ok_of_run_pure hret
  exact ⟨how, results, rfl, hps⟩

theorem run_substituteNode_read {n : Node} {addr : NodeId} {m : Option NodeId}
    (hn : now.graph.node? id = some n) (hk : n.kind = .read addr)
    (hr : (Build.boundValue? bs addr).run now = (.ok m, d')) :
    (Build.substituteNode bs k id).run now = (.ok (m.getD id), d') := by
  rw [Build.substituteNode, run_bind_of_ok (Build.run_node_of_some hn), hk]
  dsimp only
  rw [run_bind_of_ok hr]
  rfl

/-- What is made later does not change what has been made. -/
theorem getElem?_insert_of_lt {part other res : NodeId} (h : part.index < other.index) :
    (k.insert other res)[part]? = k[part]? := by
  rw [Std.HashMap.getElem?_insert, if_neg]
  rintro heq
  rw [eq_of_beq heq] at h
  exact Nat.lt_irrefl _ h

theorem ok_of_run_substituteParts {motive : Draft → List NodeId → Bindings → Prop}
    (how : start.graph.Owns root) (hs : now.Sound) (hdone : motive now done k)
    (hstep : ∀ {now done part rest k res d'},
      start.graph.closure Node.isComputed root = done ++ part :: rest →
      (∀ other ∈ done, other.index < part.index) → motive now done k →
      (Build.substituteNode bs k part).run now = (.ok res, d') →
      now.Precedes d' → d'.Sound → motive d' (done ++ [part]) (k.insert part res))
    (hord : start.graph.closure Node.isComputed root = done ++ rest)
    (h : (Build.substituteParts bs rest k).run now = (.ok results, last)) :
    motive last (done ++ rest) results := by
  induction rest generalizing done now k with
  | nil =>
    obtain ⟨rfl, rfl⟩ := ok_of_run_pure h
    rwa [append_nil]
  | cons part rest ih =>
    obtain ⟨next, s, hnx, hrs⟩ := ok_of_run_foldlM_cons h
    obtain ⟨res, s, hres, hinsert⟩ := ok_of_run_bind hnx
    obtain ⟨rfl, rfl⟩ := ok_of_run_pure hinsert
    have hld := enlarges (·.substituteNode bs k part) now
    have haf := hld.sound hres hs
    have hsorted := hord ▸ Graph.sorted_closure Node.isComputed how
    rw [append_cons]
    exact ih haf (hstep hord (fun other ho ↦ (pairwise_append.mp hsorted).2.2 other
      ho part mem_cons_self) hdone hres (hld.precedes hres hs) haf)
      (by rw [hord, append_cons]) hrs

/-- What the operands of a part have become is known. -/
def Prepares (start now : Draft) (good : Draft → NodeId → NodeId → Prop) (k : Bindings)
    (part : NodeId) : Prop :=
  ∀ n, start.graph.node? part = some n → n.isComputed = true →
    ∀ arg ∈ n.operands, ∃ res, k[arg]? = some res ∧ good now arg res

variable {good : Draft → NodeId → NodeId → Prop}

theorem exists_run_substituteParts (how : start.graph.Owns root)
    (hl : ∀ ⦃now d' part result⦄, now.Precedes d' → good now part result → good d' part result)
    (hp : ∀ ⦃now k part⦄, start.Precedes now → now.Sound →
      part ∈ start.graph.closure Node.isComputed root → start.Prepares now good k part →
      ∃ result d', (Build.substituteNode bs k part).run now = (.ok result, d') ∧
        now.Precedes d' ∧ d'.Sound ∧ good d' part result)
    (hord : start.graph.closure Node.isComputed root = done ++ rest) (hnow : start.Precedes now)
    (hs : now.Sound)
    (hdone : ∀ part ∈ done, ∃ result, k[part]? = some result ∧ good now part result) :
    ∃ results last, (Build.substituteParts bs rest k).run now = (.ok results, last) ∧
      start.Precedes last ∧ last.Sound ∧
      ∀ part ∈ done ++ rest, ∃ result, results[part]? = some result ∧ good last part result := by
  induction rest generalizing done now k with
  | nil => exact ⟨k, now, rfl, hnow, hs, by rwa [append_nil]⟩
  | cons part rest ih =>
    obtain ⟨result, d', hr, haf, hafterSound, hres⟩ := hp hnow hs
      (hord ▸ mem_append_right _ mem_cons_self)
      fun n hn hcomp arg hop ↦ hdone arg (Graph.operand_mem_closure how hord hn hcomp hop)
    have hstep : (do return k.insert part (← Build.substituteNode bs k part) :
        Build Bindings).run now = (.ok (k.insert part result), d') := by
      rw [run_bind_of_ok hr]
      rfl
    have hnx : ∀ other ∈ done ++ [part], ∃ found,
        (k.insert part result)[other]? = some found ∧ good d' other found := by
      intro other ho
      by_cases heq : part = other
      · exact ⟨result, by rw [heq, Std.HashMap.getElem?_insert_self], heq ▸ hres⟩
      · obtain ⟨found, hf, hgood⟩ := hdone other
          ((mem_append.mp ho).resolve_right fun h ↦ heq (mem_singleton.mp h).symm)
        refine ⟨found, ?_, hl haf hgood⟩
        rw [Std.HashMap.getElem?_insert, if_neg (fun h ↦ heq (eq_of_beq h)), hf]
    rw [Build.substituteParts, foldlM_cons, run_bind_of_ok hstep, append_cons]
    exact ih (by rw [hord, append_cons]) (hnow.trans haf) hafterSound hnx

theorem Sound.run_substitute_of_parts (hs : start.Sound) (how : start.graph.Owns root)
    (hl : ∀ ⦃now d' part result⦄, now.Precedes d' → good now part result → good d' part result)
    (hp : ∀ ⦃now k part⦄, start.Precedes now → now.Sound →
      part ∈ start.graph.closure Node.isComputed root → start.Prepares now good k part →
      ∃ result d', (Build.substituteNode bs k part).run now = (.ok result, d') ∧
        now.Precedes d' ∧ d'.Sound ∧ good d' part result) :
    ∃ result d', (Build.substitute bs root).run start = (.ok result, d') ∧
      start.Precedes d' ∧ d'.Sound ∧ good d' root result := by
  obtain ⟨results, last, hr, hla, hlastSound, hall⟩ := exists_run_substituteParts how hl
    hp (nil_append _).symm (.refl start) hs (forall_mem_nil _)
  obtain ⟨result, hres, hgood⟩ := hall root (Graph.root_mem_closure Node.isComputed how)
  refine ⟨result, last, ?_, hla, hlastSound, hgood⟩
  rw [run_substitute how, run_bind_of_ok hr, Std.HashMap.getD_eq_getD_getElem?, hres]
  rfl

end Draft

end DiffGraph
