import DiffGraph.Proofs.Draft.Overwriting
import DiffGraph.Proofs.Draft.Places

/-!
The entries of an evaluation. The writes of a draft are the nodes of its graph that write, in the
order of the graph. Evaluation goes through them and lists values by the texts of the addresses, and
so two addresses with one text would share an entry.

They do not if names are plain, without the characters that separate the parts of an address: the
last separator in a text is then where its last part begins, and the way to the address can be read
back from the text part by part (`AccessPath.text_inj`). An evaluation that succeeds has one entry for
each address that is written, in the order of the first writes to them, with the value of the last
write (`Reachable.evaluateWrites_entries`).
-/

set_option autoImplicit false

namespace DiffGraph

open List Stateful Build TypeTable

variable {d d draft : Draft} {id addr : NodeId} {operator : Operator}

/-- A character that begins a part of an address. -/
def Text.IsSeparator (c : Char) : Prop := c = '.' ∨ c = '['

/-- A name without separators. -/
def Text.Plain (name : String) : Prop := ∀ c ∈ name.toList, ¬IsSeparator c

/-- A text has one last separator. -/
theorem Text.append_separator_inj {front front' back back' : List Char} {c c' : Char}
    (hc : IsSeparator c) (hc' : IsSeparator c') (hback : ∀ d ∈ back, ¬IsSeparator d)
    (hback' : ∀ d ∈ back', ¬IsSeparator d) (h : front ++ c :: back = front' ++ c' :: back') :
    front = front' ∧ c = c' ∧ back = back' := by
  rcases append_eq_append_iff.mp h with ⟨between, rfl, hrs⟩ | ⟨between, rfl, hrs⟩
  · cases between with
    | nil => exact ⟨(append_nil _).symm, cons.inj hrs⟩
    | cons d between =>
      obtain ⟨-, rfl⟩ := cons.inj hrs
      exact absurd hc' (hback c' (mem_append_right _ mem_cons_self))
  · cases between with
    | nil =>
      obtain ⟨rfl, rfl⟩ := cons.inj hrs
      exact ⟨append_nil _, rfl, rfl⟩
    | cons d between =>
      obtain ⟨-, rfl⟩ := cons.inj hrs
      exact absurd hc (hback' c (mem_append_right _ mem_cons_self))

/-- The text of a slot, behind that of what it is taken of. -/
def Operator.slotText : Operator → String
  | .member field => "." ++ field
  | .index position => s!"[{position}]"
  | .registered .. | .construct => ""

/-- The operator takes a slot, and names it plainly. -/
def Operator.IsPlainSlot : Operator → Prop
  | .member field => Text.Plain field
  | .index _ => True
  | .registered .. | .construct => False

/-- The text of a slot is a separator and a name without separators. -/
theorem Operator.IsPlainSlot.exists_text (h : operator.IsPlainSlot) :
    ∃ c back, operator.slotText.toList = c :: back ∧ Text.IsSeparator c ∧
      ∀ d ∈ back, ¬Text.IsSeparator d := by
  cases operator with
  | registered | construct => exact h.elim
  | member field => exact ⟨'.', field.toList, by simp [slotText], .inl rfl, h⟩
  | index position =>
    refine ⟨'[', position.repr.toList ++ [']'], by simp [slotText, toString], .inr rfl, ?_⟩
    intro d hd
    rcases mem_append.mp hd with hdigit | hla
    · rw [Nat.toList_repr] at hdigit
      have hdigit := Nat.isDigit_of_mem_toDigits (by decide) (by decide) hdigit
      rintro (rfl | rfl)
      · cases hdigit
      · cases hdigit
    · obtain rfl := mem_singleton.mp hla
      simp [Text.IsSeparator]

theorem Operator.IsPlainSlot.eq_of_text {other : Operator} (h : operator.IsPlainSlot)
    (ho : other.IsPlainSlot) (htx : operator.slotText = other.slotText) :
    operator = other := by
  have hli := String.toList_inj.mpr htx
  cases operator with
  | registered | construct => exact h.elim
  | member field =>
    cases other with
    | registered | construct => exact ho.elim
    | member field' => simpa [slotText, String.append_right_inj] using htx
    | index position => simp [slotText, toString] at hli
  | index position =>
    cases other with
    | registered | construct => exact ho.elim
    | member field => simp [slotText, toString] at hli
    | index position' =>
      have hrepr : position.repr = position'.repr := by
        simpa [slotText, toString, String.append_right_inj, String.append_left_inj] using htx
      rw [Nat.repr_inj.mp hrepr]

namespace AccessPath

/-- The text of an address. -/
def text (path : AccessPath) : String :=
  path.slots.foldr (fun slot front ↦ front ++ slot.slotText) path.argument

/-- All names on the way are plain. -/
structure Plain (path : AccessPath) : Prop where
  argument : Text.Plain path.argument
  slots : ∀ slot ∈ path.slots, slot.IsPlainSlot

/-- Ways with plain names can be read back from their texts. -/
theorem text_inj {path other : AccessPath} (h : path.Plain) (ho : other.Plain)
    (htx : path.text = other.text) : path = other := by
  obtain ⟨name, slots⟩ := path
  obtain ⟨name', slots'⟩ := other
  -- The last slot is first in the list and last in the text.
  have hnever {name' : String} (hplain : Text.Plain name') {slot : Operator}
      (hsl : slot.IsPlainSlot) (front : String) : name' ≠ front ++ slot.slotText := by
    rintro rfl
    obtain ⟨c, back, hc, hseparator, -⟩ := hsl.exists_text
    exact hplain c (by simp [hc]) hseparator
  induction slots generalizing slots' with
  | nil =>
    cases slots' with
    | nil => exact congrArg (AccessPath.mk · []) htx
    | cons slot' slots' =>
      exact absurd htx (hnever h.argument (ho.slots slot' mem_cons_self) _)
  | cons slot slots ih =>
    cases slots' with
    | nil =>
      exact absurd htx.symm (hnever ho.argument (h.slots slot mem_cons_self) _)
    | cons slot' slots' =>
      obtain ⟨hsl, hslots⟩ := forall_mem_cons.mp h.slots
      obtain ⟨hslot', hslots'⟩ := forall_mem_cons.mp ho.slots
      obtain ⟨c, back, hc, hseparator, hback⟩ := hsl.exists_text
      obtain ⟨c', back', hc', hseparator', hback'⟩ := hslot'.exists_text
      have hli : (text ⟨name, slots⟩).toList ++ c :: back =
          (text ⟨name', slots'⟩).toList ++ c' :: back' := by
        rw [← hc, ← hc', ← String.toList_append, ← String.toList_append]
        exact congrArg String.toList htx
      obtain ⟨hfront, rfl, rfl⟩ := Text.append_separator_inj hseparator hseparator' hback hback' hli
      cases ih ⟨h.argument, hslots⟩ slots' ⟨ho.argument, hslots'⟩
        (String.toList_inj.mp hfront)
      rw [hsl.eq_of_text hslot' (String.toList_inj.mp (hc.trans hc'.symm))]

end AccessPath

namespace Draft

variable {t : String} {path : AccessPath}

/-- The text of an address is that of the way to it. -/
theorem Locates.text_eq (h : d.Locates id t path) : d.graph.text id = path.text := by
  induction h with
  | argument hn _ hk => exact Graph.text_of_argument _ hn hk
  | @part id base n operator _ _ _ _ hsl hn _ hk ih =>
    have hterm : d.graph.term id = .node n.type (.expression operator) [d.graph.term base] := by
      rw [Graph.term_of_node? hn, Node.operands, hk]
      rfl
    rw [Graph.text_eq_term] at ih ⊢
    rw [hterm, AccessPath.text, foldr_cons]
    change operator.text n.type [(d.graph.term base).text] = _ ++ _
    rw [ih]
    cases operator with
    | registered | construct => cases hsl
    | member field => exact String.append_assoc ..
    | index => rfl

/-- Arguments and fields have plain names. -/
structure PlainNames (d : Draft) : Prop where
  arguments : ∀ {name : String} {id : NodeId}, (name, id) ∈ d.arguments → Text.Plain name
  fields : ∀ {t : String} {defn : TypeDefinition},
    d.types.get? t = some defn → ∀ field ∈ defn.fields, Text.Plain field.1

theorem PlainNames.plain_path (hplain : d.PlainNames) (hs : d.Sound)
    (h : d.Locates id t path) : path.Plain := by
  induction h with
  | argument hn _ hk =>
    have hls := mem_of_lookup (hs.lookup_iff.mpr ⟨_, _, hn, hk⟩)
    exact ⟨hplain.arguments hls, forall_mem_nil _⟩
  | @part _ _ _ op _ _ _ _ hsl _ _ _ ih =>
    refine ⟨ih.argument, forall_mem_cons.mpr ⟨?_, ih.slots⟩⟩
    cases op with
    | registered | construct => cases hsl
    | index => trivial
    | member field =>
      obtain ⟨defn, hg, hfd⟩ := Option.bind_eq_some_iff.mp hsl
      obtain ⟨⟨pos, part⟩, hfd, -⟩ := Option.map_eq_some_iff.mp hfd
      obtain ⟨m, hf, hp⟩ := Option.bind_eq_some_iff.mp hfd
      obtain ⟨e, hen, -⟩ := Option.map_eq_some_iff.mp hp
      obtain ⟨hlt, hnm, -⟩ := findIdx?_eq_some_iff_getElem.mp hf
      obtain ⟨-, rfl⟩ := List.getElem?_eq_some_iff.mp hen
      have hplainField := hplain.fields hg _ (List.getElem_mem hlt)
      rwa [beq_iff_eq.mp hnm] at hplainField

/-- Two addresses differ in their texts if names are plain. -/
theorem PlainNames.eq_of_text (hplain : d.PlainNames) (hs : d.Sound)
    {first second : NodeId} {a b : Node} (ha : d.graph.node? first = some a)
    (hfst : a.isAddress = true) (hb : d.graph.node? second = some b)
    (hsnd : b.isAddress = true) (htx : d.graph.text first = d.graph.text second) :
    first = second := by
  obtain ⟨path, hpl⟩ := hs.exists_place ha hfst
  obtain ⟨other, ho⟩ := hs.exists_place hb hsnd
  rw [hpl.text_eq, ho.text_eq] at htx
  obtain rfl := AccessPath.text_inj (hplain.plain_path hs hpl) (hplain.plain_path hs ho) htx
  exact (hpl.unique hs ho).1

/-- The writes of a sound draft are the nodes that write, in the order of the graph. -/
theorem Sound.filter_ids (hs : d.Sound) :
    (d.graph.ids.filter fun id ↦ (d.graph.node? id).any Node.isWrite) = d.writes := by
  have hids : d.graph.ids.Pairwise fun earlier later ↦ earlier.index < later.index :=
    pairwise_map.mpr pairwise_lt_range
  have hnd : d.graph.ids.Nodup :=
    hids.imp fun hlt heq ↦ absurd (congrArg NodeId.index heq) (Nat.ne_of_lt hlt)
  refine Perm.eq_of_pairwise (fun a b _ _ hlt hgt ↦ absurd hlt (Nat.lt_asymm hgt))
    (hids.filter _) hs.writes_sorted
    ((perm_ext_iff_of_nodup (hnd.filter _) hs.writes_nodup).mpr fun id ↦ ?_)
  constructor
  · intro hid
    have hw := (mem_filter.mp hid).2
    obtain ⟨node, hn⟩ : ∃ node, d.graph.node? id = some node := by
      refine Option.isSome_iff_exists.mp (Option.isSome_of_any hw)
    rw [hn, Option.any_some] at hw
    obtain ⟨addr, v, hk⟩ := kind_of_isWrite hw
    exact (hs.write hn hk).2.1
  · intro hid
    obtain ⟨node, addr, v, hn, hk⟩ := hs.writes hid
    obtain ⟨hwr, hlt⟩ := Graph.owns_of_node? hn
    refine mem_filter.mpr ⟨mem_map.mpr ⟨id.index, mem_range.mpr hlt, ?_⟩, ?_⟩
    · rw [← hwr]
    · rw [hn, Option.any_some, Node.isWrite, hk]

/-- The address that a node writes to, and the value it writes. -/
def recorded? (d : Draft) (id : NodeId) : Option (NodeId × NodeId) :=
  (d.graph.node? id).bind fun n ↦
    match n.kind with
    | .write addr v => some (addr, v)
    | _ => none

/-- Addresses and values of the writes, in the order in which they were recorded. -/
def recorded (d : Draft) : List (NodeId × NodeId) := d.writes.filterMap d.recorded?

theorem recorded?_of_write {n : Node} {v : NodeId}
    (hn : d.graph.node? id = some n) (hk : n.kind = .write addr v) :
    d.recorded? id = some (addr, v) := by
  rw [recorded?, hn, Option.bind_some, hk]

theorem Sound.exists_of_written (hs : d.Sound) {e : NodeId × NodeId} (h : e ∈ d.recorded) :
    ∃ id n, d.graph.node? id = some n ∧ n.kind = .write e.1 e.2 := by
  obtain ⟨id, hid, hwritten⟩ := mem_filterMap.mp h
  obtain ⟨n, addr, v, hn, hk⟩ := hs.writes hid
  obtain rfl := Option.some.inj ((recorded?_of_write hn hk).symm.trans hwritten)
  exact ⟨id, n, hn, hk⟩

/-- What is written to is an address. -/
theorem Sound.isAddress_of_written (hs : d.Sound) (h : addr ∈ d.recorded.map Prod.fst) :
    ∃ n, d.graph.node? addr = some n ∧ n.isAddress = true := by
  obtain ⟨e, hen, rfl⟩ := mem_map.mp h
  obtain ⟨id, n, hn, hk⟩ := hs.exists_of_written hen
  obtain ⟨-, -, before, hbf, hw⟩ := hs.write hn hk
  obtain ⟨tgt, htg, haddr, -⟩ := hw.target
  exact ⟨tgt, hbf.graph.node? htg, haddr⟩

theorem Sound.owns_of_written (hs : d.Sound) {value : NodeId}
    (h : value ∈ d.recorded.map Prod.snd) : d.graph.Owns value := by
  obtain ⟨e, hen, rfl⟩ := mem_map.mp h
  obtain ⟨id, n, hn, hk⟩ := hs.exists_of_written hen
  refine Graph.owns_operand hn ?_
  rw [Node.operands, hk]
  exact mem_cons_of_mem _ mem_cons_self

end Draft

namespace Build

section Entries

variable {text : NodeId → String} {entries : List (NodeId × Value)}

theorem keys_putResult (results : List (String × Value)) (name : String) (v : Value) :
    (putResult results name v).map Prod.fst =
      if name ∈ results.map Prod.fst then results.map Prod.fst
      else results.map Prod.fst ++ [name] := by
  have hany : (results.any fun e ↦ e.1 == name) = true ↔ name ∈ results.map Prod.fst := by
    simp [any_eq_true, mem_map]
  unfold putResult
  by_cases hnm : name ∈ results.map Prod.fst
  · rw [if_pos (hany.mpr hnm), if_pos hnm, map_map]
    refine map_congr_left fun e _ ↦ ?_
    by_cases heq : e.1 = name
    · simp [heq]
    · simp [heq]
  · rw [if_neg (fun h ↦ hnm (hany.mp h)), if_neg hnm, map_append]
    rfl

/-- The values under the texts of their addresses, the last one for each. -/
def entriesOf (text : NodeId → String) (entries : List (NodeId × Value)) : List (String × Value) :=
  entries.foldl (fun results e ↦ putResult results (text e.1) e.2) []

theorem entriesOf_append (e : NodeId × Value) : entriesOf text (entries ++ [e]) =
      putResult (entriesOf text entries) (text e.1) e.2 := by
  rw [entriesOf, foldl_append]
  rfl

/-- There is one entry for each address, in the order in which they come first. -/
theorem keys_entriesOf (htx : ∀ a ∈ entries, ∀ b ∈ entries, text a.1 = text b.1 → a.1 = b.1) :
    (entriesOf text entries).map Prod.fst = (entries.map Prod.fst).eraseDups.map text ∧
      ((entriesOf text entries).map Prod.fst).Nodup := by
  induction entries using reverseRecOn with
  | nil => exact ⟨rfl, .nil⟩
  | append_singleton entries e ih =>
    have hear (a) (ha : a ∈ entries) : a ∈ entries ++ [e] := mem_append_left _ ha
    obtain ⟨hkeys, hnd⟩ := ih fun a ha b hb ↦ htx a (hear a ha) b (hear b hb)
    have hmem : text e.1 ∈ (entriesOf text entries).map Prod.fst ↔ e.1 ∈ entries.map Prod.fst := by
      rw [hkeys]
      constructor
      · intro hls
        obtain ⟨addr, haddr, heq⟩ := mem_map.mp hls
        obtain ⟨other, ho, rfl⟩ := mem_map.mp (mem_eraseDups.mp haddr)
        rw [← htx other (hear other ho) e (by simp) heq]
        exact mem_map_of_mem ho
      · exact fun hls ↦ mem_map_of_mem (mem_eraseDups.mpr hls)
    rw [entriesOf_append, keys_putResult, map_append, eraseDups_append]
    by_cases hls : e.1 ∈ entries.map Prod.fst
    · rw [if_pos (hmem.mpr hls)]
      refine ⟨?_, hnd⟩
      simp [hkeys, removeAll, hls]
    · rw [if_neg (fun h ↦ hls (hmem.mp h))]
      refine ⟨?_, ?_⟩
      · simp [hkeys, removeAll, hls, eraseDups_cons]
      · rw [← concat_eq_append]
        exact hnd.concat fun h ↦ hls (hmem.mp h)

/-- The value of an entry is the last one for its address. -/
theorem lookup_entriesOf {address : NodeId}
    (htx : ∀ a ∈ entries, text a.1 = text address → a.1 = address) :
    (entriesOf text entries).lookup (text address) = entries.reverse.lookup address := by
  induction entries using reverseRecOn with
  | nil => rfl
  | append_singleton entries e ih =>
    rw [entriesOf_append, lookup_putResult, reverse_append, reverse_singleton,
      singleton_append, lookup_cons]
    by_cases heq : e.1 = address
    · simp [heq]
    · have ho : text address ≠ text e.1 := fun h ↦ heq (htx e (by simp) h.symm)
      rw [if_neg ho, ih fun a ha ↦ htx a (mem_append_left _ ha), beq_false_of_ne (Ne.symm heq)]

end Entries

end Build

namespace Draft

section Evaluation

variable {now d' after bound : Draft} {bs bindings : Bindings} {results given : List (String × Value)}
  {env environment : List (String × Value)}

/-- Writes are evaluated one after the other, each in the draft that the one before left, and the
values are entered under the texts that the addresses had at the beginning. -/
theorem Sound.ok_of_run_evaluateEach (hs : d.Sound) (hnow : now.Sound)
    (hl : d.Precedes now) {writes : List NodeId} (hws : ∀ id ∈ writes, id ∈ d.writes)
    (hr : (writes.foldlM (Build.evaluateWrite bs) given).run now = (.ok results, d')) :
    ∃ values : List Value, (((writes.filterMap d.recorded?).map Prod.snd).mapM
        (Build.constantUnder bs)).run now = (.ok values, d') ∧
      values.length = (writes.filterMap d.recorded?).length ∧
      results = (((writes.filterMap d.recorded?).map Prod.fst).zip values).foldl
        (fun results e ↦ Build.putResult results (d.graph.text e.1) e.2) given := by
  induction writes generalizing now given with
  | nil =>
    obtain ⟨rfl, rfl⟩ := ok_of_run_pure hr
    exact ⟨[], rfl, rfl, rfl⟩
  | cons id writes ih =>
    obtain ⟨hid, hos⟩ := forall_mem_cons.mp hws
    obtain ⟨n, address, v, hn, hk⟩ := hs.writes hid
    obtain ⟨next, s, hstep, hrs⟩ := ok_of_run_foldlM_cons hr
    rw [Build.evaluateWrite, run_bind_of_ok (run_node_of_some (hl.graph.node? hn)), hk] at hstep
    obtain ⟨res, t, hc, hput⟩ := ok_of_run_bind hstep
    rw [run_get_bind] at hput
    obtain ⟨rfl, rfl⟩ := ok_of_run_pure hput
    have hld := Build.enlarges (·.constantUnder bs v) now
    have hpr := hl.trans (hld.precedes hc hnow)
    have how : d.graph.Owns address := Graph.owns_operand hn (Node.mem_operands hk mem_cons_self)
    rw [← (hpr.same how).text_eq] at hrs
    obtain ⟨values, hvs, hlen, rfl⟩ := ih (hld.sound hc hnow) hpr hos hrs
    rw [filterMap_cons_some (recorded?_of_write hn hk)]
    refine ⟨res :: values, ?_, congrArg Nat.succ hlen, rfl⟩
    rw [map_cons, mapM_cons, run_bind_of_ok hc, run_bind_of_ok hvs]
    rfl

/-- Where rules depend on terms only, each value is what the node is evaluated to by itself. -/
theorem Sound.valueFor?_of_run_mapM (hs : d.Sound) (hun : d.operators.Uniform)
    (hfx : d.types.Fixed) (hbind : (Build.bind env).run d = (.ok bs, bound))
    {ids : List NodeId} (howd : ∀ id ∈ ids, d.graph.Owns id) {values : List Value}
    (hr : (ids.mapM (Build.constantUnder bs)).run bound = (.ok values, d')) :
    values.map some = ids.map (d.valueFor? env) := by
  have hld := Build.enlarges (·.bind env) d
  have hbd := hld.sound hbind hs
  have hpr := hld.precedes hbind hs
  obtain ⟨hal, hbindings⟩ := hs.alike_of_run_bind hfx hbind
  -- The drafts in between only add to the one in which the arguments were bound.
  have hfrom {now : Draft} (hl : bound.Precedes now) (hnow : now.Sound)
      (hmap : (ids.mapM (Build.constantUnder bs)).run now = (.ok values, d')) :
      values.map some = ids.map (d.valueFor? env) := by
    clear hr
    induction ids generalizing now values with
    | nil =>
      obtain ⟨rfl, -⟩ := ok_of_run_pure hmap
      rfl
    | cons id ids ih =>
      obtain ⟨how, howd⟩ := forall_mem_cons.mp howd
      obtain ⟨res, rest, next, hc, hrs, rfl⟩ := ok_of_run_mapM_cons hmap
      have hsame := hl.same (hpr.graph.owns how)
      obtain ⟨_, _, hagain, -, -, -, rfl⟩ := constantUnder_same (hl.operators ▸ hpr.operators ▸ hun)
        (hal.later hl (.refl bound) hnow hbd) (hbindings.later hl (.refl bound))
        ⟨hsame.right, hsame.left, hsame.term.symm⟩ hc
      have hld := Build.enlarges (·.constantUnder bs id) now
      rw [map_cons, map_cons, valueFor?_of_run_bind hbind, hagain,
        ih howd (hl.trans (hld.precedes hc hnow)) (hld.sound hc hnow) hrs]
      rfl
  exact hfrom (.refl bound) hbd hr

/-- The writes are the nodes of the graph that write, each once, in the order of the graph. If
arguments and fields have plain names, addresses differ in their texts, and an evaluation of the
writes that succeeds has one entry for each address that is written, in the order of the first
writes. The entry holds what the value of the last write to the address is evaluated to. -/
theorem Reachable.evaluateWrites_entries (h : draft.Reachable) :
    (draft.graph.ids.filter fun id ↦ (draft.graph.node? id).any Node.isWrite) = draft.writes ∧
    draft.writes.Nodup ∧
    (draft.PlainNames →
      (∀ first second a b, draft.graph.node? first = some a → a.isAddress = true →
        draft.graph.node? second = some b → b.isAddress = true →
        draft.graph.text first = draft.graph.text second → first = second) ∧
      ∀ environment results after,
        (Build.evaluateWrites environment).run draft = (.ok results, after) →
        results.map Prod.fst = (draft.recorded.map Prod.fst).eraseDups.map draft.graph.text ∧
        (results.map Prod.fst).Nodup ∧
        ∃ bindings bound values, (Build.bind environment).run draft = (.ok bindings, bound) ∧
          ((draft.recorded.map Prod.snd).mapM (Build.constantUnder bindings)).run bound =
            (.ok values, after) ∧
          (∀ address ∈ draft.recorded.map Prod.fst, results.lookup (draft.graph.text address) =
            ((draft.recorded.map Prod.fst).zip values).reverse.lookup address) ∧
          (draft.operators.Uniform → draft.types.Fixed →
            values.map some = (draft.recorded.map Prod.snd).map (draft.valueFor? environment))) := by
  have hsound := h.sound
  refine ⟨hsound.filter_ids, hsound.writes_nodup, fun hplain ↦ ⟨fun _ _ _ _ ha hfirst hb hsecond ↦
    hplain.eq_of_text hsound ha hfirst hb hsecond, fun environment results after hrun ↦ ?_⟩⟩
  rw [Build.run_evaluateWrites, Build.evaluateThese] at hrun
  obtain ⟨bindings, bound, hbind, hrun⟩ := ok_of_run_bind hrun
  have hleads := Build.enlarges (·.bind environment) draft
  obtain ⟨values, hvalues, hlength, hresults⟩ := hsound.ok_of_run_evaluateEach
    (hleads.sound hbind hsound) (hleads.precedes hbind hsound) (fun _ ↦ id) hrun
  rw [← recorded] at hvalues hlength hresults
  rw [← entriesOf] at hresults
  have haddresses : ((draft.recorded.map Prod.fst).zip values).map Prod.fst =
      draft.recorded.map Prod.fst := List.map_fst_zip (by simp [hlength])
  have hdistinct : ∀ a ∈ (draft.recorded.map Prod.fst).zip values,
      ∀ address ∈ draft.recorded.map Prod.fst,
        draft.graph.text a.1 = draft.graph.text address → a.1 = address := by
    intro a ha address haddress
    have hwritten : a.1 ∈ draft.recorded.map Prod.fst := haddresses ▸ List.mem_map_of_mem ha
    obtain ⟨first, hfirst, hfirstAddress⟩ := hsound.isAddress_of_written hwritten
    obtain ⟨second, hsecond, hsecondAddress⟩ := hsound.isAddress_of_written haddress
    exact hplain.eq_of_text hsound hfirst hfirstAddress hsecond hsecondAddress
  obtain ⟨hkeys, hnodup⟩ := keys_entriesOf fun a ha b hb ↦
    hdistinct a ha b.1 (haddresses ▸ List.mem_map_of_mem hb)
  rw [← hresults] at hkeys hnodup
  refine ⟨haddresses ▸ hkeys, hnodup, bindings, bound, values, hbind, hvalues, ?_, ?_⟩
  · intro address haddress
    rw [hresults, lookup_entriesOf fun a ha ↦ hdistinct a ha address haddress]
  · intro huniform hfixed
    exact hsound.valueFor?_of_run_mapM huniform hfixed hbind (fun _ ↦ hsound.owns_of_written) hvalues

/-- A function with a pair of integers for its output. The first element is written to twice, and then
the second one. -/
def rewrittenPair : Draft :=
  (Draft.new 0 "f" .standard
    ⟨⟨"Pair", .template "array" ["int"] (some 2)⟩ :: TypeTable.scalars.newestFirst⟩
    .default).requested [.declare "a" "Pair" .output, .writeNext ⟨0, 0⟩ (.int 1),
      .write ⟨0, 1⟩ (.int 2), .writeNext ⟨0, 0⟩ (.int 3)]

theorem outcome_rewrittenPair :
    (((Build.evaluateWrites []).run rewrittenPair).1.toOption, rewrittenPair.arguments,
      rewrittenPair.recorded, rewrittenPair.types.newestFirst.all fun t ↦ t.fields.isEmpty) =
    (some [("a[0]", .int 2), ("a[1]", .int 3)], [("a", ⟨0, 0⟩)],
      [(⟨0, 1⟩, ⟨0, 2⟩), (⟨0, 1⟩, ⟨0, 4⟩), (⟨0, 6⟩, ⟨0, 7⟩)], true) := by cbv

/-- There is one entry for the element that is written twice. -/
theorem evaluateWrites_entries_rewrittenPair :
    rewrittenPair.Reachable ∧ rewrittenPair.PlainNames ∧ ∃ results after,
      (Build.evaluateWrites []).run rewrittenPair = (.ok results, after) ∧
      results = [("a[0]", .int 2), ("a[1]", .int 3)] ∧
      results.map Prod.fst = [⟨0, 1⟩, ⟨0, 6⟩].map rewrittenPair.graph.text ∧
      ∃ values : List Value, results.lookup (rewrittenPair.graph.text ⟨0, 1⟩) =
        ([(⟨0, 1⟩ : NodeId), ⟨0, 1⟩, ⟨0, 6⟩].zip values).reverse.lookup ⟨0, 1⟩ := by
  have houtcome := outcome_rewrittenPair
  simp only [Prod.mk.injEq] at houtcome
  obtain ⟨hresults, harguments, hwritten, hfields⟩ := houtcome
  have hreachable : rewrittenPair.Reachable := .afterAll (.new ..) _
  have hplain : rewrittenPair.PlainNames := by
    refine ⟨fun hlisted ↦ ?_, fun hget field hfield ↦ ?_⟩
    · rw [harguments] at hlisted
      cases List.mem_singleton.mp hlisted
      simp [Text.Plain, Text.IsSeparator]
    · have hnone := List.all_eq_true.mp hfields _ (List.mem_of_find?_eq_some hget)
      rw [List.isEmpty_iff.mp hnone] at hfield
      cases hfield
  rcases hrun : (Build.evaluateWrites []).run rewrittenPair with ⟨error | results, after⟩
  · rw [hrun] at hresults
    cases hresults
  rw [hrun] at hresults
  obtain ⟨-, -, hentries⟩ := hreachable.evaluateWrites_entries
  obtain ⟨hkeys, -, -, -, values, -, -, hlookup, -⟩ := (hentries hplain).2 _ _ _ hrun
  rw [hwritten] at hkeys hlookup
  exact ⟨hreachable, hplain, results, after, rfl, Option.some.inj hresults, hkeys, values,
    hlookup _ (by simp)⟩

end Evaluation

end Draft

end DiffGraph
