import Mathlib.Data.List.Forall2
import ProbeCoverage.Json.Event
import ProbeCoverage.Json.Options
import ProbeCoverage.Json.Report

/-! The JSON form loses nothing. A method body, a coverage and options are read back as they were written. An
    event may also be written by hand: its fields may stand in any order and among others of unknown names, and
    what is absent from it may be null or left out. All these objects are read as the same event. -/

namespace ProbeCoverage
namespace Json

/-! ### Values -/

theorem nat?_ofNat {limit n : Nat} (h : n ≤ limit) : (ofNat n).nat? limit = some n := by
  have hn : (0 : Int) ≤ n ∧ (n : Int) ≤ limit := by omega
  simp [nat?, ofNat, intIn?, hn]

theorem uint8?_ofNat (n : UInt8) : (ofNat n.toNat).uint8? = some n := by
  have h : n.toNat ≤ 0xFF := Nat.le_of_lt_succ n.toNat_lt
  rw [uint8?, nat?_ofNat h, Option.map_some, UInt8.ofNat_toNat]

theorem uint32?_ofNat (n : UInt32) : (ofNat n.toNat).uint32? = some n := by
  have h : n.toNat ≤ 0xFFFFFFFF := Nat.le_of_lt_succ n.toNat_lt
  rw [uint32?, nat?_ofNat h, Option.map_some, UInt32.ofNat_toNat]

theorem int32?_int (n : Int32) : (int n.toInt).int32? = some n := by
  have h : -0x80000000 ≤ n.toInt ∧ n.toInt ≤ 0x7FFFFFFF := ⟨n.le_toInt, Int.le_of_lt_add_one n.toInt_lt⟩
  rw [int32?, intIn?, if_pos h, Option.map_some, Int32.ofInt_toInt]

theorem int64?_int (n : Int64) : (int n.toInt).int64? = some n := by
  have h : -0x8000000000000000 ≤ n.toInt ∧ n.toInt ≤ 0x7FFFFFFFFFFFFFFF :=
    ⟨n.le_toInt, Int.le_of_lt_add_one n.toInt_lt⟩
  rw [int64?, intIn?, if_pos h, Option.map_some, Int64.ofInt_toInt]

section Lists
variable {α : Type} {read : Json → Option α}

/-- A list is read item by item. -/
theorem listOf?_arr {as : List α} {items : List Json} (h : List.Forall₂ (fun a j => read j = some a) as items) :
    (arr items).listOf? read = some as := by
  show items.mapM read = some as
  induction h with
  | nil => rfl
  | cons ha _ ih => simp [ha, ih]

theorem listOf?_ofList {write : α → Json} (h : ∀ a, read (write a) = some a) (as : List α) :
    (ofList write as).listOf? read = some as := by
  refine listOf?_arr (List.forall₂_map_right_iff.mpr (List.forall₂_same.mpr fun a _ => h a))

end Lists

/-! ### Objects -/

/-- A field of an object. Its value may have several forms; if it has none, it is null or left out. -/
inductive Field where
  | present (key : String) (forms : Json → Prop)
  | absent (key : String)

namespace Field

/-- A field with only one form. -/
def exact (key : String) (value : Json) : Field := present key (· = value)

def optional (key : String) : Option Json → Field
  | none => absent key
  | some value => exact key value

/-- These members of an object write the field. -/
def WrittenIn (members : List (String × Json)) : Field → Prop
  | present key forms => ∃ value, (key, value) ∈ members ∧ forms value
  | absent key => ∀ value, (key, value) ∈ members → value = null

end Field

/-- An object with these fields, in any order and among any others. No name occurs twice in an object. -/
def Writes (fields : List Field) (j : Json) : Prop :=
  ∃ members, j = obj members ∧ (members.map (·.1)).Nodup ∧ ∀ f ∈ fields, f.WrittenIn members

theorem member?_of_mem {members : List (String × Json)} (hn : (members.map (·.1)).Nodup) {key : String} {value : Json}
    (h : (key, value) ∈ members) : (obj members).member? key = some value := by
  show members.lookup key = some value
  induction members with
  | nil => cases h
  | cons x members ih =>
    rw [List.map_cons, List.nodup_cons] at hn
    rcases List.mem_cons.mp h with rfl | h
    · exact List.lookup_cons_self
    · have hne : key ≠ x.1 := by
        rintro rfl
        exact hn.1 (List.mem_map.mpr ⟨_, h, rfl⟩)
      rw [List.lookup_cons, beq_false_of_ne hne]
      exact ih hn.2 h

section Fields
variable {fields : List Field} {j : Json} {key : String} {value : Json} {α : Type} {read : Json → Option α}

theorem Writes.member? {forms : Json → Prop} (h : Writes fields j) (hf : .present key forms ∈ fields) :
    ∃ value, j.member? key = some value ∧ forms value := by
  obtain ⟨members, rfl, hn, hall⟩ := h
  obtain ⟨value, hv, hforms⟩ := hall _ hf
  exact ⟨value, member?_of_mem hn hv, hforms⟩

theorem Writes.member?_exact (h : Writes fields j) (hf : .exact key value ∈ fields) : j.member? key = some value := by
  obtain ⟨_, hv, rfl⟩ := h.member? hf
  exact hv

/-- A field is read by what it holds, in whatever form that is written. -/
theorem Writes.required? {a : α} {forms : Json → Prop} (h : Writes fields j)
    (hf : .present key forms ∈ fields) (hread : ∀ value, forms value → read value = some a) :
    j.required? key read = some a := by
  obtain ⟨value, hv, hforms⟩ := h.member? hf
  rw [Json.required?, hv]
  exact hread value hforms

theorem Writes.required?_exact {a : α} (h : Writes fields j)
    (hf : .exact key value ∈ fields) (hread : read value = some a) : j.required? key read = some a :=
  h.required? hf fun _ hv => hv ▸ hread

theorem optional?_of_ne_null (h : j.member? key = some value) (hne : value ≠ null) :
    j.optional? key read = (read value).map some := by
  rw [Json.optional?, h]
  cases value with
  | null => exact absurd rfl hne
  | _ => rfl

variable {write : α → Json} {o : Option α}

theorem optional?_ofOption (hread : ∀ a, read (write a) = some a) (hne : ∀ a, write a ≠ null)
    (h : j.member? key = some (ofOption write o)) :
    j.optional? key read = some o := by
  cases o with
  | none => rw [Json.optional?, h]; rfl
  | some a =>
    rw [optional?_of_ne_null h (hne a)]
    show (read (write a)).map some = some (some a)
    rw [hread, Option.map_some]

theorem Writes.optional? (hread : ∀ a, read (write a) = some a) (hne : ∀ a, write a ≠ null) (h : Writes fields j)
    (hf : .optional key (o.map write) ∈ fields) : j.optional? key read = some o := by
  cases o with
  | none =>
    obtain ⟨members, rfl, hn, hall⟩ := h
    have hnull : ∀ value, (key, value) ∈ members → value = null := hall _ hf
    rw [Json.optional?]
    cases hm : (obj members).member? key with
    | none => rfl
    | some value =>
      obtain ⟨l, l', rfl, -⟩ := List.lookup_eq_some_iff.mp hm
      rw [hnull value (List.mem_append_right _ List.mem_cons_self)]
  | some a =>
    rw [optional?_of_ne_null (h.member?_exact hf) (hne a), hread]
    rfl

end Fields

/-! ### Objects as they are written -/

/-- An object of its own writes each of its members. -/
theorem writes_obj {members : List (String × Json)} (hn : (members.map (·.1)).Nodup) {fields : List Field}
    (h : ∀ f ∈ fields, f.WrittenIn members) : Writes fields (obj members) := ⟨members, rfl, hn, h⟩

theorem writtenIn_exact {part members : List (String × Json)} (hpart : part ⊆ members) :
    ∀ f ∈ part.map fun x => Field.exact x.1 x.2, f.WrittenIn members := by
  intro f hf
  obtain ⟨x, hx, rfl⟩ := List.mem_map.mp hf
  exact ⟨x.2, hpart hx, rfl⟩

end Json

/-! ### Events -/

section Names

theorem Opcode.ofJson?_toJson (o : Opcode) : Opcode.ofJson? o.toJson = some o := by
  rw [ofJson?, toJson, Json.uint8?_ofNat, Option.map_some]

theorem Label.ofJson?_toJson (l : Label) : Label.ofJson? l.toJson = some l := by
  rw [ofJson?, toJson, index, Json.uint32?_ofNat, Option.map_some]

theorem ProbeId.ofJson?_toJson (p : ProbeId) : ProbeId.ofJson? p.toJson = some p := by
  rw [ofJson?, toJson, index, Json.uint32?_ofNat, Option.map_some]

end Names

namespace SwitchTarget

def fields (t : SwitchTarget) : List Json.Field :=
  [.exact "label" t.label.toJson, .optional "probe" (t.probe.map ProbeId.toJson)]

theorem writes_toJson (t : SwitchTarget) : Json.Writes t.fields t.toJson := by
  obtain ⟨l, p⟩ := t
  cases p <;> refine Json.writes_obj (by simp [Json.optionalMember]) ?_ <;>
    simp [fields, Json.Field.optional, Json.Field.exact, Json.Field.WrittenIn, Json.optionalMember]

theorem ofJson?_of_writes {t : SwitchTarget} {j : Json} (h : Json.Writes t.fields j) : ofJson? j = some t := by
  have hlabel : j.required? "label" Label.ofJson? = some t.label :=
    h.required?_exact (by simp [fields]) t.label.ofJson?_toJson
  have hprobe : j.optional? "probe" ProbeId.ofJson? = some t.probe :=
    h.optional? ProbeId.ofJson?_toJson nofun (by simp [fields])
  rw [ofJson?, hlabel, hprobe]
  rfl

end SwitchTarget

namespace HandlerRange

def fields (r : HandlerRange) : List Json.Field :=
  [.exact "start" r.start.toJson, .exact "end" r.stop.toJson, .exact "handler" r.handler.toJson,
    .optional "catch_type" (r.catchType.map .str)]

theorem ofJson?_of_writes {r : HandlerRange} {fs : List Json.Field} {j : Json} (h : Json.Writes fs j)
    (hf : r.fields ⊆ fs) : ofJson? j = some r := by
  have hstart : j.required? "start" Label.ofJson? = some r.start :=
    h.required?_exact (hf (by simp [fields])) r.start.ofJson?_toJson
  have hstop : j.required? "end" Label.ofJson? = some r.stop :=
    h.required?_exact (hf (by simp [fields])) r.stop.ofJson?_toJson
  have hhandler : j.required? "handler" Label.ofJson? = some r.handler :=
    h.required?_exact (hf (by simp [fields])) r.handler.ofJson?_toJson
  have hstr : ∀ text, Json.str? (.str text) = some text := fun _ => rfl
  have htype : j.optional? "catch_type" Json.str? = some r.catchType :=
    h.optional? hstr nofun (hf (by simp [fields]))
  rw [ofJson?, hstart, hstop, hhandler, htype]
  rfl

theorem writtenIn_members (r : HandlerRange) {kind : Json} :
    ∀ f ∈ r.fields, f.WrittenIn (("kind", kind) :: r.members) := by
  obtain ⟨start, stop, handler, catchType⟩ := r
  cases catchType <;>
    simp [fields, members, Json.Field.optional, Json.Field.exact, Json.Field.WrittenIn, Json.ofOption]

end HandlerRange

namespace SwitchKeys

def fields (keys : SwitchKeys) : List Json.Field := keys.members.map fun x => .exact x.1 x.2

variable {fs : List Json.Field} {j : Json}

theorem tableOfJson?_of_writes {min max : Int32} (h : Json.Writes fs j) (hf : (table min max).fields ⊆ fs) :
    tableOfJson? j = some (.table min max) := by
  have hmin : j.required? "min" Json.int32? = some min :=
    h.required?_exact (hf (by simp [fields, members])) (Json.int32?_int min)
  have hmax : j.required? "max" Json.int32? = some max :=
    h.required?_exact (hf (by simp [fields, members])) (Json.int32?_int max)
  rw [tableOfJson?, hmin, hmax]
  rfl

theorem lookupOfJson?_of_writes {keys : List Int32} (h : Json.Writes fs j) (hf : (lookup keys).fields ⊆ fs) :
    lookupOfJson? j = some (.lookup keys) := by
  have hkeys : j.required? "keys" (Json.listOf? Json.int32?) = some keys :=
    h.required?_exact (hf (by simp [fields, members])) (Json.listOf?_ofList Json.int32?_int keys)
  rw [lookupOfJson?, hkeys]
  rfl

end SwitchKeys

namespace SwitchArms

def fields : SwitchArms → List Json.Field
  | plain default cases => [.exact "default" default.toJson, .exact "targets" (.ofList Label.toJson cases)]
  | probed default cases => [.present "default" (Json.Writes default.fields),
      .present "targets" fun j =>
        ∃ items, j = .arr items ∧ List.Forall₂ (fun t => Json.Writes t.fields) cases items]

variable {fs : List Json.Field} {j : Json}

theorem plainOfJson?_of_writes {default : Label} {cases : List Label} (h : Json.Writes fs j)
    (hf : (plain default cases).fields ⊆ fs) : plainOfJson? j = some (.plain default cases) := by
  have hdefault : j.required? "default" Label.ofJson? = some default :=
    h.required?_exact (hf (by simp [fields])) default.ofJson?_toJson
  have htargets : j.required? "targets" (Json.listOf? Label.ofJson?) = some cases :=
    h.required?_exact (hf (by simp [fields])) (Json.listOf?_ofList Label.ofJson?_toJson cases)
  rw [plainOfJson?, hdefault, htargets]
  rfl

theorem probedOfJson?_of_writes {default : SwitchTarget} {cases : List SwitchTarget} (h : Json.Writes fs j)
    (hf : (probed default cases).fields ⊆ fs) : probedOfJson? j = some (.probed default cases) := by
  have hdefault : j.required? "default" SwitchTarget.ofJson? = some default :=
    h.required? (hf List.mem_cons_self) fun _ => SwitchTarget.ofJson?_of_writes
  have htargets : j.required? "targets" (Json.listOf? SwitchTarget.ofJson?) = some cases := by
    refine h.required? (hf (List.mem_cons_of_mem _ List.mem_cons_self)) ?_
    rintro _ ⟨items, rfl, hitems⟩
    exact Json.listOf?_arr (hitems.imp fun _ _ => SwitchTarget.ofJson?_of_writes)
  rw [probedOfJson?, hdefault, htargets]
  rfl

theorem writtenIn_members (arms : SwitchArms) {members : List (String × Json)} (hpart : arms.members ⊆ members) :
    ∀ f ∈ arms.fields, f.WrittenIn members := by
  cases arms with
  | plain default cases => exact Json.writtenIn_exact hpart
  | probed default cases =>
    simp only [fields, List.mem_cons, List.not_mem_nil, or_false, forall_eq_or_imp, forall_eq]
    refine ⟨⟨_, hpart List.mem_cons_self, default.writes_toJson⟩,
      ⟨_, hpart (List.mem_cons_of_mem _ List.mem_cons_self), _, rfl, ?_⟩⟩
    exact List.forall₂_map_right_iff.mpr (List.forall₂_same.mpr fun t _ => t.writes_toJson)

end SwitchArms

namespace Event

/-- The fields of the object that stands for the event. -/
def fields (e : Event) : List Json.Field :=
  .exact "kind" (.str e.kind) :: match e with
    | switch keys arms => keys.fields ++ arms.fields
    | handler r => r.fields
    | e => e.members.map fun x => .exact x.1 x.2

/-- The object stands for the event. It may differ from the one that is written in the order of fields, in
    fields of other names, and in whether what is absent is null or left out. -/
def WrittenAs (e : Event) (j : Json) : Prop := Json.Writes e.fields j

theorem ofJson?_of_writtenAs {e : Event} {j : Json} (h : e.WrittenAs j) : ofJson? j = some e := by
  have hkind : j.required? "kind" Json.str? = some e.kind := h.required?_exact List.mem_cons_self rfl
  have hexact : ∀ {α : Type} {key : String} {value : Json} {read : Json → Option α} {a : α},
      Json.Field.exact key value ∈ e.fields → read value = some a → j.required? key read = some a :=
    fun hf hread => Json.Writes.required?_exact h hf hread
  rw [ofJson?, hkind]
  -- A probe is read where the kind says that there is one, so its two forms are cases of their own.
  cases e with
  | label l =>
    have hlabel : j.required? "label" Label.ofJson? = some l := hexact (by simp [fields, members]) l.ofJson?_toJson
    simp [kind, hlabel]
  | line number start =>
    have hline : j.required? "line" Json.uint32? = some number :=
      hexact (by simp [fields, members]) (Json.uint32?_ofNat number)
    have hstart : j.required? "start" Label.ofJson? = some start :=
      hexact (by simp [fields, members]) start.ofJson?_toJson
    simp [kind, hline, hstart]
  | insn opcode p =>
    have hopcode : opcodeOfJson? j = some opcode := hexact (by simp [fields, members]) opcode.ofJson?_toJson
    cases p with
    | none => simp [kind, hopcode]
    | some p =>
      have hprobe : probeOfJson? j = some p :=
        hexact (by simp [fields, members, Json.optionalMember]) p.ofJson?_toJson
      simp [kind, hopcode, hprobe]
  | jump opcode target p =>
    have hopcode : opcodeOfJson? j = some opcode := hexact (by simp [fields, members]) opcode.ofJson?_toJson
    have htarget : targetOfJson? j = some target := hexact (by simp [fields, members]) target.ofJson?_toJson
    cases p with
    | none => simp [kind, hopcode, htarget]
    | some p =>
      have hprobe : probeOfJson? j = some p :=
        hexact (by simp [fields, members, Json.optionalMember]) p.ofJson?_toJson
      simp [kind, hopcode, htarget, hprobe]
  | switch keys arms =>
    have hkeys : keys.fields ⊆ (switch keys arms).fields := fun f hf =>
      List.mem_cons_of_mem _ (List.mem_append_left _ hf)
    have harms : arms.fields ⊆ (switch keys arms).fields := fun f hf =>
      List.mem_cons_of_mem _ (List.mem_append_right _ hf)
    cases keys with
    | table min max =>
      have htable := SwitchKeys.tableOfJson?_of_writes h hkeys
      cases arms with
      | plain default cases => simp [kind, htable, SwitchArms.plainOfJson?_of_writes h harms]
      | probed default cases => simp [kind, htable, SwitchArms.probedOfJson?_of_writes h harms]
    | lookup keys =>
      have hlookup := SwitchKeys.lookupOfJson?_of_writes h hkeys
      cases arms with
      | plain default cases => simp [kind, hlookup, SwitchArms.plainOfJson?_of_writes h harms]
      | probed default cases => simp [kind, hlookup, SwitchArms.probedOfJson?_of_writes h harms]
  | handler r =>
    have hrange := HandlerRange.ofJson?_of_writes h fun f hf => List.mem_cons_of_mem _ hf
    simp [kind, hrange]
  | probe p =>
    have hprobe : probeOfJson? j = some p := hexact (by simp [fields, members]) p.ofJson?_toJson
    simp [kind, hprobe]

/-- The object that is written for an event stands for it. -/
theorem writtenAs_toJson (e : Event) : e.WrittenAs e.toJson := by
  refine Json.writes_obj ?_ ?_
  · cases e with
    | insn _ p | jump _ _ p => cases p <;> simp [members, Json.optionalMember]
    | switch keys arms => cases keys <;> cases arms <;> simp [members, SwitchKeys.members, SwitchArms.members]
    | _ => simp [members, HandlerRange.members]
  · intro f hf
    rcases List.mem_cons.mp hf with rfl | hf
    · exact ⟨_, List.mem_cons_self, rfl⟩
    · cases e with
      | switch keys arms =>
        rcases List.mem_append.mp hf with hf | hf
        · exact Json.writtenIn_exact (List.subset_cons_of_subset _ (List.subset_append_left ..)) f hf
        · exact arms.writtenIn_members (List.subset_cons_of_subset _ (List.subset_append_right ..)) f hf
      | handler r => exact r.writtenIn_members f hf
      | _ => exact Json.writtenIn_exact (List.subset_cons_self ..) f hf

end Event

/-! ### Coverage -/

section Coverage

theorem Count.ofJson?_toJson (n : Count) : Count.ofJson? n.toJson = some n := by
  rw [ofJson?, toJson, Json.nat?_ofNat n.toNat_le_limit]
  exact n.ofNat?_toNat

theorem Counter.ofJson?_toJson (c : Counter) : Counter.ofJson? c.toJson = some c := by
  simp [ofJson?, toJson, Json.required?, Json.member?, List.lookup_cons, Count.ofJson?_toJson]

theorem LineCoverage.ofJson?_toJson (l : LineCoverage) : LineCoverage.ofJson? l.toJson = some l := by
  simp [ofJson?, toJson, members, Json.required?, Json.member?, List.lookup_cons, Counter.ofJson?_toJson]

theorem MethodCounters.ofJson?_toJson (c : MethodCounters) : MethodCounters.ofJson? c.toJson = some c := by
  simp [ofJson?, toJson, Json.required?, Json.member?, List.lookup_cons, Counter.ofJson?_toJson]

theorem MethodCoverage.ofJson?_toJson (m : MethodCoverage) : MethodCoverage.ofJson? m.toJson = some m := by
  obtain ⟨name, desc, signature, first, last, lines, counters⟩ := m
  have hlines : (Json.ofList LineCoverage.toJson lines).listOf? LineCoverage.ofJson? = some lines :=
    Json.listOf?_ofList LineCoverage.ofJson?_toJson lines
  set j := toJson ⟨name, desc, signature, first, last, lines, counters⟩ with hj
  have hsignature : j.optional? "signature" Json.str? = some signature := by
    cases signature <;> rfl
  have hfirst : j.optional? "first_line" Json.uint32? = some first := by
    refine Json.optional?_ofOption Json.uint32?_ofNat nofun ?_
    cases signature <;> rfl
  have hlast : j.optional? "last_line" Json.uint32? = some last := by
    refine Json.optional?_ofOption Json.uint32?_ofNat nofun ?_
    cases signature <;> rfl
  rw [ofJson?, hsignature, hfirst, hlast]
  cases signature <;>
    simp [hj, toJson, Json.required?, Json.optionalMember, Json.member?, List.lookup_cons, Json.str?, hlines,
      MethodCounters.ofJson?_toJson]

end Coverage

/-! ### Options -/

theorem Shape.ofJson?_toJson (s : Shape) : Shape.ofJson? s.toJson = some s := by
  simp [ofJson?, toJson, Json.isObject, Json.defaulted?, Json.member?, List.lookup_cons, Json.int64?_int]

theorem Options.ofJson?_toJson (o : Options) : Options.ofJson? o.toJson = some o := by
  simp [ofJson?, toJson, Json.isObject, Json.defaulted?, Json.member?, List.lookup_cons, Json.bool?, Shape.ofJson?_toJson]

/-! ### What is written is read back -/

/-- Bodies, coverages and options are read back as they were written, and an event is read from every object that
    stands for it. -/
theorem reads_what_is_written :
    (∀ events : List Event, (Json.ofList Event.toJson events).listOf? Event.ofJson? = some events) ∧
    (∀ m : MethodCoverage, MethodCoverage.ofJson? m.toJson = some m) ∧
    (∀ o : Options, Options.ofJson? o.toJson = some o) ∧
    ∀ e : Event, e.WrittenAs e.toJson ∧ ∀ j, e.WrittenAs j → Event.ofJson? j = some e := by
  refine ⟨fun events => ?_, MethodCoverage.ofJson?_toJson, Options.ofJson?_toJson, fun e => ?_⟩
  · exact Json.listOf?_ofList (fun e => Event.ofJson?_of_writtenAs e.writtenAs_toJson) events
  · exact ⟨e.writtenAs_toJson, fun _ => Event.ofJson?_of_writtenAs⟩

/-- A switch with one probe, on the way to its only case. -/
def oneArmed : Event := .switch (.table 0 0) (.probed ⟨⟨1⟩, none⟩ [⟨⟨2⟩, some ⟨0⟩⟩])

/-- The same, written by hand. -/
def oneArmedJson : Json :=
  .obj [("targets", .arr [.obj [("probe", .int 0), ("label", .int 2)]]), ("note", .str "one arm"),
    ("default", .obj [("label", .int 1), ("probe", .null)]), ("max", .int 0), ("min", .int 0),
    ("kind", .str "table_switch_with_probes")]

theorem writtenAs_oneArmed : oneArmed.WrittenAs oneArmedJson := by
  refine Json.writes_obj (by decide) ?_
  simp [oneArmed, Event.fields, Event.kind, SwitchKeys.fields, SwitchKeys.members, SwitchArms.fields, Json.Writes,
    SwitchTarget.fields, Json.Field.optional, Json.Field.exact, Json.Field.WrittenIn, Label.toJson, ProbeId.toJson,
    Label.index, ProbeId.index, Json.ofNat]

theorem reads_what_is_written_oneArmed : oneArmed.WrittenAs oneArmedJson ∧ Event.ofJson? oneArmedJson = some oneArmed :=
  ⟨writtenAs_oneArmed, (reads_what_is_written.2.2.2 oneArmed).2 oneArmedJson writtenAs_oneArmed⟩

end ProbeCoverage
