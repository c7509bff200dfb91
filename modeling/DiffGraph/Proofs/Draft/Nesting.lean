import DiffGraph.Proofs.Draft.Listing
import DiffGraph.Proofs.Draft.Operands

/-!
How deep replacements nest. A replacement may ask for applications that are replaced in turn, by any
rules and without end, and a rule does not have to get closer to anything. What happens is described
without a bound on the way (`Draft.Completes`): requests come to applications, applications to plans,
and plans to further requests, and all that is kept is how many replacements are under way. A
replacement is only begun if they are fewer than the limit.

Every request is completed then (`Draft.exists_completes`), in one way, which is how drafts meet it
(`Completes.run_eq`), and more replacements than the limit are never under way at once
(`Completes.deepest_le`). A rule that has its operator applied again to the same operands runs into
the limit whenever it gets a turn (`Draft.run_finish_spins`).
-/

set_option autoImplicit false

namespace DiffGraph

open Stateful Build

/-- What is next for a plan that only looks at the draft. -/
def Plan.afterLook {α : Type} (d : Draft) : Plan α → Option (Except Error (Plan α))
  | .inspect id next => some ((d.node id).map next)
  | .isZero id next => some ((d.isZero id).map next)
  | .isOne id next => some ((d.isOne id).map next)
  | .done _ | .fail _ | .build .. => none

/-- What an application of a slot is replaced by, as a plan. -/
def Plan.slot (onAddress : NodeId → Request) (t : String) (base : NodeId) (slot : Nat) :
    Plan (Option NodeId) := do
  match (← Plan.node base).kind with
  | .constant v =>
    match v.element? slot with
    | some item => return some (← Plan.request (.constant t item))
    | none => return none
  | .expression .construct parts => return parts[slot]?
  | .read addr => return some (← Plan.request (.read (← Plan.request (onAddress addr))))
  | _ => return none

/-- What the operator of an application has in mind for it. -/
def Application.replacement (d : Draft) (w : Application) : Plan (Option NodeId) :=
  match w.operator, w.operands with
  | .registered name ov, args =>
    match (d.operators.overload? name ov).bind fun o ↦ o.rules.replace with
    | some rule => rule args
    | none => return none
  | .member field, base :: _ => do
    match (d.types.get? (← Plan.typeOf base)).bind fun defn ↦ defn.field? field with
    | some (slot, _) => Plan.slot (fun addr ↦ .member addr field) w.type base slot
    | none => return none
  | .index pos, base :: _ =>
    Plan.slot (fun addr ↦ .index addr pos) w.type base pos
  | .construct, _ | .member _, [] | .index _, [] => return none

def Application.evaluate (w : Application) : Build (Option NodeId) :=
  evaluate? w.operator w.type w.operands

def Application.form (w : Application) : Build NodeId :=
  intern w.type (.expression w.operator w.operands) w.isAddress

/-- What is to be done: to meet a request, to make a node of an application, or to follow a plan. -/
inductive Task : Type → Type 1
  | meet (q : Request) : Task NodeId
  | make (w : Application) : Task NodeId
  | follow (plan : Plan (Option NodeId)) : Task (Option NodeId)

/-- How a task is carried out, with a number of nested replacements still allowed. -/
def Task.run {α : Type} (rest : Nat) : Task α → Build α
  | .meet q => perform rest q
  | .make w => finish (replaceWithin rest) w.operator w.type w.operands
      w.isAddress
  | .follow plan => plan.run (perform rest)

/-- Goes on from an outcome, if it is not a failure. -/
def Build.resume {α β : Type} (m : Except Error α) (next : α → Build β) : Build β :=
  match m with
  | .ok a => next a
  | .error error => throw error

theorem Build.run_bind_resume {α β : Type} {x : Build α} {next : α → Build β}
    {d reached : Draft} {m : Except Error α} (h : x.run d = (m, reached)) :
    (x >>= next).run d = (resume m next).run reached := by
  cases m with
  | ok a => exact run_bind_of_ok h
  | error error => exact run_bind_of_error h

namespace Draft

variable {α : Type} {d draft reached d' after : Draft} {q request : Request} {w : Application}
  {next : NodeId → Build NodeId} {limit depth deepest : Nat}

/-- The construction ends before there is an application. -/
def Ends (d : Draft) (construction : Finish → Build NodeId) (outcome : Except Error NodeId)
    (d' : Draft) : Prop :=
  ∀ finish, (construction finish).run d = (outcome, d')

/-- The construction comes to an application, and then goes on with its node. -/
def LeadsTo (d : Draft) (construction : Finish → Build NodeId) (w : Application)
    (next : NodeId → Build NodeId) (reached : Draft) : Prop :=
  ∀ finish, (construction finish).run d =
    (do next (← finish w.operator w.type w.operands w.isAddress)).run reached

/-- The task is completed in the draft, while a number of replacements is under way. The last number
is how many of them are under way at most until then. -/
inductive Completes (limit : Nat) : {α : Type} → Nat → Task α → Draft → Except Error α → Draft →
    Nat → Prop
  | ended {depth : Nat} {q : Request} {d d' : Draft} {outcome : Except Error NodeId}
      (hends : d.Ends (performWith · q) outcome d') :
      Completes limit depth (.meet q) d outcome d' depth
  | applied {depth deepest : Nat} {q : Request} {w : Application}
      {next : NodeId → Build NodeId} {d reached made d' : Draft}
      {m outcome : Except Error NodeId}
      (hld : d.LeadsTo (performWith · q) w next reached)
      (hmake : Completes limit depth (.make w) reached m made deepest)
      (hnx : (resume m next).run made = (outcome, d')) :
      Completes limit depth (.meet q) d outcome d' deepest
  | evaluated {depth : Nat} {w : Application} {d d' : Draft}
      {outcome : Except Error NodeId} (hev : w.evaluate.run d = (outcome.map some, d')) :
      Completes limit depth (.make w) d outcome d' depth
  | exhausted {depth : Nat} {w : Application} {d d' : Draft}
      (hev : w.evaluate.run d = (.ok none, d')) (hdp : limit ≤ depth) :
      Completes limit depth (.make w) d
        (.error (.replacementLimit w.operator.name d'.options.replacementLimit)) d' depth
  | replaced {depth deepest : Nat} {w : Application} {d begun d' : Draft}
      {outcome : Except Error NodeId}
      (hev : w.evaluate.run d = (.ok none, begun)) (hdp : depth < limit)
      (hfollow : Completes limit (depth + 1) (.follow (w.replacement begun)) begun
        (outcome.map some) d' deepest) :
      Completes limit depth (.make w) d outcome d' deepest
  | formed {depth deepest : Nat} {w : Application} {d begun kept d' : Draft}
      {outcome : Except Error NodeId}
      (hev : w.evaluate.run d = (.ok none, begun)) (hdp : depth < limit)
      (hfollow : Completes limit (depth + 1) (.follow (w.replacement begun)) begun
        (.ok none) kept deepest)
      (hform : w.form.run kept = (outcome, d')) :
      Completes limit depth (.make w) d outcome d' deepest
  | done {depth : Nat} {d : Draft} (res : Option NodeId) :
      Completes limit depth (.follow (.done res)) d (.ok res) d depth
  | fail {depth : Nat} {d : Draft} (error : Error) :
      Completes limit depth (.follow (.fail error)) d (.error error) d depth
  | build {depth deepest deepest' : Nat} {q : Request}
      {next : Except Error NodeId → Plan (Option NodeId)} {d met d' : Draft}
      {answer : Except Error NodeId} {outcome : Except Error (Option NodeId)}
      (hmeet : Completes limit depth (.meet q) d answer met deepest)
      (hfollow : Completes limit depth (.follow (next answer)) met outcome d' deepest') :
      Completes limit depth (.follow (.build q next)) d outcome d'
        (max deepest deepest')
  | looked {depth deepest : Nat} {plan next : Plan (Option NodeId)} {d d' : Draft}
      {outcome : Except Error (Option NodeId)} (hlook : plan.afterLook d = some (.ok next))
      (hfollow : Completes limit depth (.follow next) d outcome d' deepest) :
      Completes limit depth (.follow plan) d outcome d' deepest
  | notLooked {depth : Nat} {plan : Plan (Option NodeId)} {d : Draft} {error : Error}
      (hlook : plan.afterLook d = some (.error error)) :
      Completes limit depth (.follow plan) d (.error error) d depth

/-- Replacements that are under way when a task begins are so until it is completed, and more than
the limit are never begun. -/
theorem Completes.deepest_le {task : Task α} {outcome : Except Error α}
    (h : Completes limit depth task d outcome d' deepest) (hdp : depth ≤ limit) :
    depth ≤ deepest ∧ deepest ≤ limit := by
  induction h with
  | ended | evaluated | exhausted | done | fail | notLooked => exact ⟨Nat.le_refl _, hdp⟩
  | applied _ _ _ ih | looked _ _ ih => exact ih hdp
  | replaced _ hless _ ih | formed _ hless _ _ ih =>
    exact ⟨Nat.le_of_succ_le (ih hless).1, (ih hless).2⟩
  | build _ _ ihmeet ihfollow =>
    obtain ⟨hfst, hmeet⟩ := ihmeet hdp
    exact ⟨Nat.le_trans hfst (Nat.le_max_left ..), Nat.max_le.mpr ⟨hmeet, (ihfollow hdp).2⟩⟩

section Requests

/-- The construction ends without an application, or comes to one. -/
def Settles (d : Draft) (construction : Finish → Build NodeId) : Prop :=
  (∃ outcome d', d.Ends construction outcome d') ∨
    ∃ w next reached, d.LeadsTo construction w next reached

theorem settles_of_ends (operation : Build NodeId) (d : Draft) : d.Settles fun _ ↦ operation :=
  .inl ⟨_, _, fun _ ↦ rfl⟩

theorem settles_get {construction : Finish → Draft → Build NodeId}
    (h : d.Settles (construction · d)) :
    d.Settles fun finish ↦ get >>= construction finish := by
  unfold Settles Ends LeadsTo at h ⊢
  simpa only [run_get_bind] using h

/-- What is done afterwards does not matter. -/
theorem Settles.bind {construction : Finish → Build NodeId} (h : d.Settles construction)
    (rest : NodeId → Build NodeId) : d.Settles fun finish ↦ construction finish >>= rest := by
  rcases h with ⟨outcome, d', hends⟩ | ⟨w, next, reached, hld⟩
  · cases outcome with
    | error error => exact .inl ⟨_, _, fun finish ↦ run_bind_of_error (hends finish)⟩
    | ok id => exact .inl ⟨_, _, fun finish ↦ run_bind_of_ok (hends finish)⟩
  · refine .inr ⟨w, fun id ↦ next id >>= rest, reached, fun finish ↦ ?_⟩
    rw [← bind_assoc, run_bind, hld finish, ← run_bind]

theorem settles_of_comes {given : List NodeId} {shape : Application → Prop}
    {construction : Finish → Build NodeId}
    (h : Comes d.Enlarges (fun _ ↦ d.Enlarges) given shape d construction) :
    d.Settles construction := by
  cases h with
  | fails _ hr => exact .inl ⟨_, _, hr⟩
  | applies w _ _ _ hr =>
    exact .inr ⟨w, pure, _, fun finish ↦ (hr finish).trans (by rw [bind_pure])⟩

/-- A request comes to one application, if to any. -/
theorem settles_performWith (q : Request) (d : Draft) : d.Settles (performWith · q) := by
  have hprepare := preparing_enlarges d
  cases q with
  | apply op args => exact settles_of_comes (hprepare.apply op args (refl _))
  | member base field => exact settles_of_comes (hprepare.slot (.member base field) (refl _))
  | index base pos => exact settles_of_comes (hprepare.slot (.index base pos) (refl _))
  | construct t arguments =>
    exact settles_of_comes (hprepare.construct [] t arguments (refl _))
  | writeNext addr v =>
    unfold performWith writeNextWith
    exact settles_get ((settles_of_comes (hprepare.slot (.index addr _) (refl _))).bind _)
  | read | constant | one | declare | write => exact settles_of_ends _ d

end Requests

section Plans

/-- A look at the draft leaves it as it is. -/
theorem run_afterLook {plan : Plan α} {m : Except Error (Plan α)}
    (perform : Request → Build NodeId) (h : plan.afterLook draft = some m) :
    (plan.run perform).run draft = (resume m fun next ↦ next.run perform).run draft := by
  have hquery {β : Type} (question : Draft → Except Error β) (next : β → Plan α) :
      (query question >>= fun answer ↦ (next answer).run perform).run draft =
        (resume ((question draft).map next) fun next ↦ next.run perform).run draft := by
    cases hans : question draft with
    | ok answer => exact run_bind_of_ok (by rw [run_query, hans])
    | error error => exact run_bind_of_error (by rw [run_query, hans])
  cases plan with
  | done | fail | build => cases h
  | inspect _ next | isZero _ next | isOne _ next => exact Option.some.inj h ▸ hquery _ next

theorem run_request_bind {β : Type} (perform : Request → Build NodeId) (q : Request)
    (next : NodeId → Plan β) (draft : Draft) :
    ((Plan.request q >>= next).run perform).run draft =
      (perform q >>= fun id ↦ (next id).run perform).run draft := by
  rw [Plan.run_bind]
  exact run_bind_congr (Plan.run_request perform q draft)

theorem run_slot (rest : Nat) (onAddress : NodeId → Request) (type : String) (base : NodeId)
    (slot : Nat) (draft : Draft) :
    (project (perform rest) onAddress type base slot).run draft =
      ((Plan.slot onAddress type base slot).run (perform rest)).run draft := by
  have hdirect (q : Request) (operation : Build NodeId)
      (h : ∀ finish, performWith finish q = operation) :
      perform rest q = operation := by rw [perform_eq, h]
  have hplan : (Plan.node base).run (perform rest) = Build.node base := bind_pure _
  rw [project, Plan.slot, Plan.run_bind, hplan]
  rcases hn : (Build.node base).run draft with ⟨error | node, s⟩
  · rw [run_bind_of_error hn, run_bind_of_error hn]
  rw [run_bind_of_ok hn, run_bind_of_ok hn]
  cases node.kind with
  | argument | write => rfl
  | expression op parts => cases op <;> rfl
  | constant v =>
    dsimp only
    cases v.element? slot with
    | none => rfl
    | some item =>
      dsimp only
      rw [run_request_bind, hdirect _ _ fun _ ↦ rfl]
      rfl
  | read addr =>
    dsimp only
    rw [run_request_bind]
    rcases hp : (perform rest (onAddress addr)).run s with ⟨error | part, t⟩
    · rw [run_bind_of_error hp, run_bind_of_error hp]
    · rw [run_bind_of_ok hp, run_bind_of_ok hp, run_request_bind, hdirect _ _ fun _ ↦ rfl]
      rfl

/-- The replacement of an application is what its operator has in mind. -/
theorem run_replacement (rest : Nat) (w : Application) (draft : Draft) :
    (replace? (perform rest) w.operator w.type w.operands).run draft =
      ((w.replacement draft).run (perform rest)).run draft := by
  obtain ⟨op, t, args, isAddress⟩ := w
  cases op with
  | registered name ov =>
    rw [replace?, run_get_bind, Application.replacement]
    dsimp only
    cases (draft.operators.overload? name ov).bind fun o ↦ o.rules.replace <;> rfl
  | construct => rfl
  | index pos =>
    cases args with
    | nil => rfl
    | cons base _ => exact run_slot rest _ t base pos draft
  | member field =>
    cases args with
    | nil => rfl
    | cons base _ =>
      rw [replace?, run_get_bind, Application.replacement]
      dsimp only
      rw [Plan.run_bind, show (Plan.typeOf base).run (perform rest) = typeOf base from rfl]
      rcases ht : (typeOf base).run draft with ⟨error | whole, s⟩
      · rw [run_bind_of_error ht, run_bind_of_error ht]
      rw [run_bind_of_ok ht, run_bind_of_ok ht]
      cases (draft.types.get? whole).bind fun defn ↦ defn.field? field with
      | none => rfl
      | some m => exact run_slot rest _ t base m.1 s

end Plans

section Completion

/-- A task that is completed is carried out like that. -/
theorem Completes.run_eq {task : Task α} {outcome : Except Error α}
    (h : Completes limit depth task d outcome d' deepest) :
    (task.run (limit - depth)).run d = (outcome, d') := by
  induction h with
  | ended hends =>
    rw [Task.run, perform_eq]
    exact hends _
  | applied hld _ hnx ih =>
    rw [Task.run, perform_eq, hld]
    exact (run_bind_resume ih).trans hnx
  | @evaluated _ w d _ outcome hev =>
    rw [Task.run, finish, ← Application.evaluate, run_bind_resume hev]
    cases outcome <;> rfl
  | exhausted hev hdp =>
    rw [Task.run, finish, ← Application.evaluate, run_bind_of_ok hev, Nat.sub_eq_zero_of_le hdp]
    rfl
  | @replaced depth _ w _ begun d' outcome hev hdp _ ih =>
    have hremaining : limit - depth = limit - (depth + 1) + 1 := by omega
    rw [Task.run, finish, ← Application.evaluate, run_bind_of_ok hev, hremaining]
    dsimp only
    rw [replaceWithin, run_bind_resume ((run_replacement _ w begun).trans ih)]
    cases outcome <;> rfl
  | @formed depth _ w _ begun _ _ _ hev hdp _ hform ih =>
    have hremaining : limit - depth = limit - (depth + 1) + 1 := by omega
    rw [Task.run, finish, ← Application.evaluate, run_bind_of_ok hev, hremaining]
    dsimp only
    rw [replaceWithin, run_bind_of_ok ((run_replacement _ w begun).trans ih), ← hform]
    rfl
  | done | fail => rfl
  | build _ _ ihmeet ihfollow =>
    rw [Task.run, Plan.run, run_bind_of_ok (run_observe _ _)]
    rw [Task.run] at ihmeet
    rw [ihmeet]
    exact ihfollow
  | looked hlook _ ih => exact (run_afterLook _ hlook).trans ih
  | notLooked hlook => exact run_afterLook _ hlook

/-- A plan asks for nodes until it is done. -/
theorem exists_follow
    (hmeet : ∀ q d, ∃ outcome d' deepest, Completes limit depth (.meet q) d outcome d' deepest)
    (plan : Plan (Option NodeId)) (d : Draft) : ∃ outcome d' deepest,
      Completes limit depth (.follow plan) d outcome d' deepest := by
  have hlook {β : Type} {question : Except Error β} {next : β → Plan (Option NodeId)}
      {plan : Plan (Option NodeId)} {d : Draft}
      (hplan : plan.afterLook d = some (question.map next))
      (hnx : ∀ answer, ∃ outcome d' deepest,
        Completes limit depth (.follow (next answer)) d outcome d' deepest) :
      ∃ outcome d' deepest, Completes limit depth (.follow plan) d outcome d' deepest := by
    cases question with
    | error error => exact ⟨_, _, _, .notLooked hplan⟩
    | ok answer =>
      obtain ⟨outcome, d', deepest, hfollow⟩ := hnx answer
      exact ⟨outcome, d', deepest, .looked hplan hfollow⟩
  induction plan generalizing d with
  | done res => exact ⟨_, _, _, .done res⟩
  | fail error => exact ⟨_, _, _, .fail error⟩
  | build q next ih =>
    obtain ⟨answer, met, deepest, hreq⟩ := hmeet q d
    obtain ⟨outcome, d', deepest', hfollow⟩ := ih answer met
    exact ⟨outcome, d', _, .build hreq hfollow⟩
  | inspect id next ih | isZero id next ih | isOne id next ih =>
    exact hlook rfl fun answer ↦ ih answer d

/-- An application becomes a node, or fails, if its replacement is completed. -/
theorem exists_make (hfollow : depth < limit → ∀ plan d, ∃ outcome d' deepest,
      Completes limit (depth + 1) (.follow plan) d outcome d' deepest)
    (w : Application) (d : Draft) : ∃ outcome d' deepest,
      Completes limit depth (.make w) d outcome d' deepest := by
  rcases hev : w.evaluate.run d with ⟨error | found, begun⟩
  · exact ⟨.error error, begun, depth, .evaluated hev⟩
  cases found with
  | some id => exact ⟨.ok id, begun, depth, .evaluated hev⟩
  | none =>
    rcases Nat.lt_or_ge depth limit with hdp | hdp
    · obtain ⟨outcome, kept, deepest, hreplaced⟩ := hfollow hdp (w.replacement begun) begun
      rcases outcome with error | found
      · exact ⟨.error error, kept, deepest, .replaced hev hdp hreplaced⟩
      cases found with
      | some id => exact ⟨.ok id, kept, deepest, .replaced hev hdp hreplaced⟩
      | none => exact ⟨_, _, deepest, .formed hev hdp hreplaced rfl⟩
    · exact ⟨_, _, depth, .exhausted hev hdp⟩

theorem exists_meet
    (hmake : ∀ w d, ∃ outcome d' deepest, Completes limit depth (.make w) d outcome d' deepest)
    (q : Request) (d : Draft) : ∃ outcome d' deepest,
      Completes limit depth (.meet q) d outcome d' deepest := by
  rcases settles_performWith q d with ⟨outcome, d', hends⟩ | ⟨w, next, reached, hld⟩
  · exact ⟨outcome, d', depth, .ended hends⟩
  · obtain ⟨m, made, deepest, hmade⟩ := hmake w reached
    exact ⟨_, _, deepest, .applied hld hmade rfl⟩

/-- Every request is completed. The induction is on the replacements that may still be begun. -/
theorem exists_completes (limit depth : Nat) (q : Request) (d : Draft) :
    ∃ outcome d' deepest, Completes limit depth (.meet q) d outcome d' deepest := by
  induction hremaining : limit - depth generalizing depth q d with
  | zero =>
    exact exists_meet (exists_make fun hdp ↦ absurd hdp (by omega)) q d
  | succ rest ih =>
    refine exists_meet (exists_make fun _ ↦ exists_follow fun q d ↦ ?_) q d
    exact ih (depth + 1) q d (by omega)

end Completion

end Draft

/-- The overload is not evaluated, and its rule begins by having the operator applied to the operands
once more. -/
def Overload.Spins (ov : Overload) : Prop :=
  ov.rules.evaluate = none ∧ ∃ rule, ov.rules.replace = some rule ∧
    ∀ args, ∃ next, rule args = Plan.apply ov.name (args.map .node) >>= next

namespace Draft

variable {d draft : Draft} {ov overload : Overload} {pos position : Nat}

/-- The application comes to the overload: its operands are nodes, once numbers have become constants;
the overload is the first one of the operator that takes their types, and its result type is known. -/
structure Selects (d : Draft) (operands : List Operand) (pos : Nat) (ov : Overload) :
    Prop where
  named : applyWith.projection? ov.name = none
  operands : ∃ ids middle ts t, (coerce operands).run d = (.ok ids, middle) ∧
    List.Forall₂ middle.HasType ids ts ∧
    d.operators.resolve ov.name ts = some (pos, ov) ∧
    middle.HasResult ts t ov.result

/-- A rule that has its operator applied again comes to the limit. The induction is on the
replacements that are left: each turn finds the same operands in the same draft. -/
theorem run_finish_spins (hspins : ov.Spins) (hnd : applyWith.projection? ov.name = none)
    {ids : List NodeId} {ts : List String} {t : String} (hvs : List.Forall₂ d.HoldsValue ids ts)
    (hrv : d.operators.resolve ov.name ts = some (pos, ov)) (hres : d.HasResult ts t ov.result)
    (rest : Nat) :
    (finish (replaceWithin rest) (.registered ov.name pos) t ids false).run
        d =
      (.error (.replacementLimit ov.name d.options.replacementLimit), d) := by
  obtain ⟨hev, rule, hru, hagain⟩ := hspins
  have hov := (Registry.overload?_of_resolve hrv).1
  have hno : (evaluate? (.registered ov.name pos) t ids).run d = (.ok none, d) := by
    rw [evaluate?, run_get_bind, hov, Option.bind_some, hev]
    rfl
  rw [finish, run_bind_of_ok hno]
  dsimp only
  induction rest with
  | zero => exact run_bind_of_error (run_get_bind.trans rfl)
  | succ rest ih =>
    obtain ⟨next, hnx⟩ := hagain ids
    have happly : (perform rest (.apply ov.name (ids.map .node))).run d =
        (.error (.replacementLimit ov.name d.options.replacementLimit), d) := by
      rw [run_perform_apply rest hnd hvs hrv hres, finish, run_bind_of_ok hno]
      exact ih
    have hrep : (replace? (perform rest) (.registered ov.name pos) t ids).run d =
        (.error (.replacementLimit ov.name d.options.replacementLimit), d) := by
      rw [replace?, run_get_bind, hov, Option.bind_some, hru]
      dsimp only
      rw [hnx, Plan.apply, run_request_bind, run_bind_of_error happly]
    exact run_bind_of_error hrep

/-- Every application that comes to such a rule fails at the limit. -/
theorem Selects.run_apply (hs : d.Sound) {args : List Operand}
    (hselects : d.Selects args pos ov) (hspins : ov.Spins) :
    ∃ d', (Build.apply ov.name args).run d =
      (.error (.replacementLimit ov.name d.options.replacementLimit), d') := by
  obtain ⟨ids, middle, ts, t, hcoerce, hts, hrv, hres⟩ := hselects.operands
  have hmid := (coerce_enlarges args d).sound hcoerce hs
  have hpr := (coerce_enlarges args d).precedes hcoerce hs
  have hreads : middle.Attains (ids.mapM valueOf) False fun _ values ↦
      List.Forall₂ (fun _ _ ↦ True) ids values := by
    refine attains_mapM (fun _ _ ↦ trivial) hmid fun id hid d' hl haf ↦ ?_
    obtain ⟨place, hpl, rfl⟩ := List.mem_iff_getElem.mp hid
    have ht := hts.get hpl (hts.length_eq ▸ hpl)
    exact (attains_valueOf haf (ht.later hl)).mono (fun h ↦ h) fun _ _ _ ↦ trivial
  obtain ⟨values, last, hvs, hgr, hla, -⟩ := hreads.exists_ok
  have hl := hpr.trans hgr.toPrecedes
  have hholds := holdsValue_of_run_mapM_valueOf hmid hts hvs
  refine ⟨last, ?_⟩
  rw [Build.apply, Build.request, run_get_bind, run_perform_operands _ hselects.named hcoerce hts
    (hpr.operators ▸ hrv) hres hvs, run_finish_spins hspins hselects.named hholds
    (hl.operators ▸ hrv) (hres.extends hgr.types), hl.options]

/-- Replacements come to an end, whatever the operators. Every request is completed, and met that way;
never are more replacements under way than the limit. An operator that is not evaluated and whose rule
applies it once more to its operands fails at the limit, whatever it is applied to. -/
theorem Reachable.replacements_end (hdraft : draft.Reachable) :
    (∀ request, ∃ outcome after deepest,
      Completes draft.options.replacementLimit 0 (.meet request) draft outcome after deepest) ∧
    (∀ request outcome after deepest,
      Completes draft.options.replacementLimit 0 (.meet request) draft outcome after deepest →
      (Build.request request).run draft = (outcome, after) ∧
        deepest ≤ draft.options.replacementLimit) ∧
    ∀ operands position overload, draft.Selects operands position overload → overload.Spins →
      ∃ after, (Build.apply overload.name operands).run draft =
        (.error (.replacementLimit overload.name draft.options.replacementLimit), after) := by
  refine ⟨fun request ↦ exists_completes _ 0 request draft, fun request outcome after deepest h ↦ ?_,
    fun operands position overload hselects ↦ hselects.run_apply hdraft.sound⟩
  exact ⟨run_get_bind.trans h.run_eq, (h.deepest_le (Nat.zero_le _)).2⟩

/-- An operator whose rule applies it again. -/
def spin : Overload where
  name := "spin"
  result := .named "double"
  patterns := [.exact "double"]
  rules := {
    replace := some fun args ↦ do return some (← Plan.apply "spin" (args.map .node)) }

/-- A function with an argument, where eight replacements may nest. -/
def spinning : Draft :=
  (Draft.new 0 "f" ⟨[spin]⟩ .scalars { Options.default with replacementLimit := 8 }).requested
    [.declare "x" "double" .input]

theorem facts_spinning : (spinning.options.replacementLimit, spinning.operators,
      (spinning.graph.node? ⟨0, 0⟩).map Node.type, (spinning.types.get? "double").isSome) =
    (8, ⟨[spin]⟩, some "double", true) := by cbv

/-- The operator fails after eight replacements, all of them under way at once. -/
theorem replacements_end_spinning : spinning.Reachable ∧
    spinning.Selects [.node ⟨0, 0⟩] 0 spin ∧ spin.Spins ∧
    (∃ after, (Build.apply "spin" [.node ⟨0, 0⟩]).run spinning =
      (.error (.replacementLimit "spin" 8), after)) ∧
    ∃ outcome after deepest, Completes 8 0 (.meet (.apply "spin" [.node ⟨0, 0⟩])) spinning outcome
      after deepest ∧ outcome = .error (.replacementLimit "spin" 8) ∧ deepest ≤ 8 := by
  have hfacts := facts_spinning
  simp only [Prod.mk.injEq] at hfacts
  obtain ⟨hlimit, hoperators, htype, hdouble⟩ := hfacts
  obtain ⟨node, hnode, htype⟩ := Option.map_eq_some_iff.mp htype
  have hcoerce : (coerce [.node ⟨0, 0⟩]).run spinning = (.ok [⟨0, 0⟩], spinning) :=
    run_coerce_nodes (List.forall_mem_singleton.mpr (Graph.owns_of_node? hnode))
  have hreachable : spinning.Reachable := .afterAll (.new ..) _
  have hspins : spin.Spins := ⟨rfl, _, rfl, fun operands ↦ ⟨_, rfl⟩⟩
  have hselects : spinning.Selects [.node ⟨0, 0⟩] 0 spin :=
    ⟨by decide, [⟨0, 0⟩], spinning, ["double"], "double", hcoerce,
      .cons ⟨node, hnode, htype⟩ .nil, by rw [hoperators]; rfl, rfl, hdouble⟩
  obtain ⟨hexists, hcompletes, hfails⟩ := hreachable.replacements_end
  obtain ⟨after, hafter⟩ := hfails _ _ _ hselects hspins
  obtain ⟨outcome, last, deepest, hmeet⟩ := hexists (.apply "spin" [.node ⟨0, 0⟩])
  obtain ⟨hrun, hdeepest⟩ := hcompletes _ _ _ _ hmeet
  rw [hlimit] at hafter hmeet hdeepest
  refine ⟨hreachable, hselects, hspins, ⟨after, hafter⟩, outcome, last, deepest, hmeet, ?_, hdeepest⟩
  exact (Prod.mk.inj (hrun.symm.trans hafter)).1

end Draft

end DiffGraph
