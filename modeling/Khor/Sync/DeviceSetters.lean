/-
Module: Khor.Sync.DeviceSetters
Purpose: What a reader sees after a setter: the fields it names, and everything else as before; a second call writes
  nothing. A value only the old nested entry holds survives being cleared where a setter takes a missing register for
  an empty one, and exactly there.
Trusted boundary: none
Main exports: Given, Call, Faithful, faithful_iff, setters_faithful
-/
import Khor.Sync.Devices

namespace Khor.Devices

/-! ### Keys -/

theorem splitOnce_plain : ∀ {s : Text}, SEP ∉ s → splitOnce s = none
  | [], _ => rfl
  | c :: s, absent => by
      obtain ⟨other, rest⟩ := not_or.mp (mt List.mem_cons.mpr absent)
      rw [splitOnce, if_neg (fun is => other is.symm), splitOnce_plain rest]
      rfl

theorem splitOnce_sep : ∀ {s : Text}, SEP ∉ s → ∀ name, splitOnce (s ++ SEP :: name) = some (s, name)
  | [], _, name => rfl
  | c :: s, absent, name => by
      obtain ⟨other, rest⟩ := not_or.mp (mt List.mem_cons.mpr absent)
      rw [List.cons_append, splitOnce, if_neg (fun is => other is.symm), splitOnce_sep rest]
      rfl

theorem Id.ext {a b : Id} (same : a.text = b.text) : a = b := by
  cases a
  cases b
  cases same
  rfl

variable {id : Id} {t : Table}

/-- A register's key tells its machine and its field. -/
theorem fkey_inj {id' : Id} {name name' : Text} (same : fkey id name = fkey id' name') : id = id' ∧ name = name' := by
  have split := splitOnce_sep id.plain name
  unfold fkey at same
  rw [same, splitOnce_sep id'.plain name'] at split
  obtain ⟨text, field⟩ := Prod.mk.inj (Option.some.inj split)
  exact ⟨Id.ext text.symm, field.symm⟩

/-- And is never the key of a nested entry. -/
theorem fkey_ne_id (id id' : Id) (name : Text) : id'.text ≠ fkey id name := by
  intro same
  have split := splitOnce_plain id'.plain
  rw [same, fkey, splitOnce_sep id.plain name] at split
  cases split

theorem owner_fkey (id : Id) (name : Text) : owner (fkey id name) = id.text := by
  rw [owner, fkey, splitOnce_sep id.plain name]

theorem owner_id (id : Id) : owner id.text = id.text := by
  rw [owner, splitOnce_plain id.plain]

/-! ### One write -/

theorem nested_eq (t : Table) (id : Id) (name : Text) : nested t id name = (legacyEntry t.map id).lookup name := by
  rw [nested, legacyEntry]
  split <;> rfl

theorem flat_writeField (t : Table) (id id' : Id) (name name' : Text) (v : Value) :
    flat (writeField t id name v) id' name' = if id' = id ∧ name' = name then some v else flat t id' name' := by
  have other : fkey id' name' ≠ id.text := (fkey_ne_id id' id name').symm
  rw [flat, writeField, AList.lookup_insert_ne other]
  split
  · rename_i w is
    by_cases same : id' = id ∧ name' = name
    · obtain ⟨rfl, rfl⟩ := same
      rw [AList.lookup_insert] at is
      cases is
      rw [if_pos ⟨rfl, rfl⟩]
    · have apart : fkey id' name' ≠ fkey id name := fun h => same (fkey_inj h)
      rw [AList.lookup_insert_ne apart] at is
      rw [if_neg same, flat, is]
  · rename_i none
    by_cases same : id' = id ∧ name' = name
    · obtain ⟨rfl, rfl⟩ := same
      exact absurd (AList.lookup_insert _) (none v)
    · have apart : fkey id' name' ≠ fkey id name := fun h => same (fkey_inj h)
      rw [AList.lookup_insert_ne apart] at none
      rw [if_neg same, flat]
      split
      · rename_i v is
        exact absurd is (none v)
      · rfl

theorem nested_writeField (t : Table) (id id' : Id) (name name' : Text) (v : Value) :
    nested (writeField t id name v) id' name' = if id' = id ∧ name' = name then some v else nested t id' name' := by
  have beside (map : AList fun _ : Text => Entry) (e : Entry) (i : Id) :
      legacyEntry (map.insert (fkey id name) e) i = legacyEntry map i := by
    rw [legacyEntry, legacyEntry, AList.lookup_insert_ne (fkey_ne_id id i name)]
  rw [nested_eq, nested_eq, writeField]
  by_cases own : id' = id
  · subst own
    have row (map : AList fun _ : Text => Entry) (fields : AList fun _ : Text => Value) :
        legacyEntry (map.insert id'.text (.row fields)) id' = fields := by
      rw [legacyEntry, AList.lookup_insert]
    rw [row, beside]
    by_cases same : name' = name
    · subst same
      rw [AList.lookup_insert, if_pos ⟨rfl, rfl⟩]
    · rw [AList.lookup_insert_ne same, if_neg (fun h => same h.2)]
  · have apart : id'.text ≠ id.text := fun h => own (Id.ext h)
    have frame (map : AList fun _ : Text => Entry) (e : Entry) :
        legacyEntry (map.insert id.text e) id' = legacyEntry map id' := by
      rw [legacyEntry, legacyEntry, AList.lookup_insert_ne apart]
    rw [frame, beside, if_neg (fun h => own h.1)]

theorem field_eq (t : Table) (id : Id) (name : Text) : field t id name = (flat t id name).or (nested t id name) := by
  rw [field]
  cases flat t id name <;> rfl

/-- What a register of a table says: in the flat shape, and to a reader. -/
def register (t : Table) (id : Id) (name : Text) : Option Value × Option Value := (flat t id name, field t id name)

theorem register_writeField (t : Table) (id id' : Id) (name name' : Text) (v : Value) :
    register (writeField t id name v) id' name' =
      if id' = id ∧ name' = name then (some v, some v) else register t id' name' := by
  unfold register
  rw [field_eq, field_eq, flat_writeField, nested_writeField]
  split <;> rfl

/-! ### A list of writes -/

theorem register_apply (t : Table) (id id' : Id) (w : Write) (name : Text) :
    register (w.apply t id) id' name =
      if id' = id ∧ name = w.name ∧ w.same (flat t id w.name) (field t id w.name) = false then
        (some w.value, some w.value)
      else register t id' name := by
  unfold Write.apply
  cases same : w.same (flat t id w.name) (field t id w.name) with
  | true => simp
  | false => simp [register_writeField]

/-- Other fields, and other machines, are as before. -/
theorem applyAll_other {id id' : Id} {ws : List Write} {name : Text} (other : id' ≠ id ∨ name ∉ ws.map Write.name) :
    ∀ t, register (applyAll t id ws) id' name = register t id' name := by
  induction ws with
  | nil => exact fun t => rfl
  | cons w ws ih =>
      intro t
      have later : id' ≠ id ∨ name ∉ ws.map Write.name :=
        other.imp_right fun h mem => h (.tail _ mem)
      have apart : ¬ (id' = id ∧ name = w.name ∧ w.same (flat t id w.name) (field t id w.name) = false) := by
        rintro ⟨rfl, rfl, -⟩
        exact other.elim (fun h => h rfl) fun h => h (.head _)
      rw [applyAll, List.foldl_cons]
      exact (ih later (w.apply t id)).trans (by rw [register_apply, if_neg apart])

/-- What a write leaves in its own field, where no other write of the list touches it. -/
theorem applyAll_at {id : Id} {ws : List Write} (distinct : (ws.map Write.name).Nodup) {w : Write} (mem : w ∈ ws) :
    ∀ t, register (applyAll t id ws) id w.name =
      if w.same (flat t id w.name) (field t id w.name) then register t id w.name
      else (some w.value, some w.value) := by
  induction ws with
  | nil => exact absurd mem List.not_mem_nil
  | cons v ws ih =>
      intro t
      rw [List.map_cons, List.nodup_cons] at distinct
      rw [applyAll, List.foldl_cons]
      obtain rfl | later := List.mem_cons.mp mem
      · have rest := @applyAll_other id id ws w.name (.inr distinct.1) (w.apply t id)
        rw [applyAll] at rest
        rw [rest, register_apply]
        cases w.same (flat t id w.name) (field t id w.name) <;> simp
      · have apart : ¬ (id = id ∧ w.name = v.name ∧ v.same (flat t id v.name) (field t id v.name) = false) := by
          rintro ⟨-, same, -⟩
          exact distinct.1 (same ▸ List.mem_map_of_mem later)
        have before : register (v.apply t id) id w.name = register t id w.name := by
          rw [register_apply, if_neg apart]
        obtain ⟨flats, fields⟩ := Prod.mk.inj before
        have rest := ih distinct.2 later (v.apply t id)
        rw [applyAll] at rest
        rw [rest, flats, fields, before]

/-- A write that is its own value's is left out the second time, so a second call changes nothing. -/
theorem applyAll_again {ws : List Write} (distinct : (ws.map Write.name).Nodup)
    (stable : ∀ w ∈ ws, w.same (some w.value) (some w.value) = true) (t : Table) :
    applyAll (applyAll t id ws) id ws = applyAll t id ws := by
  have said : ∀ w ∈ ws, w.same (flat (applyAll t id ws) id w.name) (field (applyAll t id ws) id w.name) = true := by
    intro w mem
    have left := @applyAll_at id ws distinct w mem t
    split at left
    · rename_i same
      obtain ⟨flats, fields⟩ := Prod.mk.inj left
      rw [flats, fields, same]
    · obtain ⟨flats, fields⟩ := Prod.mk.inj left
      rw [flats, fields]
      exact stable w mem
  have idle : ∀ {l : List Write}, (∀ w ∈ l, w ∈ ws) → applyAll (applyAll t id ws) id l = applyAll t id ws := by
    intro l
    induction l with
    | nil => exact fun _ => rfl
    | cons w l ih =>
        intro all
        have first : w.apply (applyAll t id ws) id = applyAll t id ws := if_pos (said w (all w (.head _)))
        have rest := ih fun v mem => all v (.tail _ mem)
        rw [applyAll, List.foldl_cons, first]
        exact rest
  exact idle fun _ mem => mem

/-! ### What a setter is told -/

inductive Call where
  | upsert (name : Text) (addrs : List Text)
  | setStyle (style : Text)
  | setPinned (on : Bool)
  | setWatch (paths : List Text)
  | setReceiveDir (dir : Text)
  | setReceiveResolved (setting why : Text)
  | setSatellite (sponsor : Text) (road : SshRoad) (tmux : Bool)
  | setCarried (carrier : Option Text) (road : Option SshRoad)
  | setGone (on : Bool)

def Call.writes (json : Json) : Call → List Write
  | .upsert name addrs => Devices.upsert json name addrs
  | .setStyle style => Devices.setStyle style
  | .setPinned on => Devices.setPinned on
  | .setWatch paths => Devices.setWatch json paths
  | .setReceiveDir dir => Devices.setReceiveDir dir
  | .setReceiveResolved setting why => Devices.setReceiveResolved setting why
  | .setSatellite sponsor road tmux => Devices.setSatellite sponsor road tmux
  | .setCarried carrier road => Devices.setCarried carrier road
  | .setGone on => Devices.setGone on

def Call.run (json : Json) (call : Call) (t : Table) (id : Id) : Table := applyAll t id (call.writes json)

/-- A value a setter is given for a field, as a reader takes that field. -/
inductive Given where
  | text (s : Text)
  | flag (b : Bool)
  | list (l : List Text)
  | probed (b : Bool)

/-- A reader who finds this in the field takes it for that value: nothing for an empty text or list, and for false. -/
def Sees (json : Json) (found : Option Value) : Given → Prop
  | .text s => (strOf found).getD [] = s
  | .flag b => boolOf found = b
  | .list l => ((strOf found).bind json.fromStr).getD [] = l
  | .probed b => found = some (.bool b)

/-- What a road says before its host. -/
def SshRoad.gives (road : SshRoad) : List (Text × Given) :=
  [(F_SSH_JUMP, .text (road.jump.getD [])), (F_SSH_PORT, .text road.portText), (F_SSH_PASSWORD, .flag road.password),
    (F_SSH_IDENTITY, .text (road.identity.getD [])), (F_SSH_PASSPHRASE, .flag road.passphrase)]

/-- The fields a call names, with the values it gives. -/
def Call.gives : Call → List (Text × Given)
  | .upsert name addrs => [(F_NAME, .text name), (F_ADDRS, .list addrs)]
  | .setStyle style => [(F_STYLE, .text style)]
  | .setPinned on => [(F_PINNED, .flag on)]
  | .setWatch paths => [(F_WATCH, .list paths)]
  | .setReceiveDir dir => [(F_RECEIVE_DIR, .text dir)]
  | .setReceiveResolved setting why => [(F_RECEIVE_FOR, .text setting), (F_RECEIVE_WHY, .text why)]
  | .setSatellite sponsor road tmux =>
      road.gives ++ [(F_SPONSOR, .text sponsor), (F_SSH_HOST, .text road.host), (F_SAT_TMUX, .probed tmux)]
  | .setCarried carrier none => [(F_CARRIER, .text (carrier.getD []))]
  | .setCarried carrier (some road) =>
      (F_CARRIER, .text (carrier.getD [])) :: road.gives ++ [(F_SSH_HOST, .text road.host)]
  | .setGone on => [(F_GONE, .flag on)]

/-- A call means what it says: its fields read as given, every other field and machine as before, and a second call
writes nothing. -/
structure Faithful (json : Json) (t : Table) (id : Id) (call : Call) : Prop where
  named : ∀ p ∈ call.gives, Sees json (field (call.run json t id) id p.1) p.2
  others : ∀ id' name, id' ≠ id ∨ name ∉ call.gives.map Prod.fst →
    field (call.run json t id) id' name = field t id' name
  again : call.run json (call.run json t id) id = call.run json t id

/-- The options of a road, which may be given as none. -/
def SshRoad.options (road : SshRoad) : List (Text × Text) :=
  [(F_SSH_JUMP, road.jump.getD []), (F_SSH_PORT, road.portText), (F_SSH_IDENTITY, road.identity.getD [])]

def Call.options : Call → List (Text × Text)
  | .setSatellite _ road _ => road.options
  | .setCarried carrier road => (F_CARRIER, carrier.getD []) :: (road.map SshRoad.options).getD []
  | _ => []

/-- Every option that is given as none has a flat register, or showed a reader nothing: it is not a value that only the
old nested entry holds. -/
def Clearable (t : Table) (id : Id) (call : Call) : Prop :=
  ∀ p ∈ call.options, p.2 = [] → flat t id p.1 ≠ none ∨ (strOf (field t id p.1)).getD [] = []

/-! ### Write by write -/

/-- A write that is made leaves its field as given, and is left out from then on. -/
structure Sound (json : Json) (w : Write) (g : Given) : Prop where
  made : Sees json (some w.value) g
  stable : w.same (some w.value) (some w.value) = true

/-- Where a write is left out, the field reads as given already. -/
def Said (json : Json) (t : Table) (id : Id) (w : Write) (g : Given) : Prop :=
  w.same (flat t id w.name) (field t id w.name) = true → Sees json (field t id w.name) g

/-- A flat register is what a reader sees. -/
theorem field_of_flat {name : Text} {v : Value} (is : flat t id name = some v) : field t id name = some v := by
  rw [field, is]

theorem strOf_eq_some {v : Option Value} {s : Text} : strOf v = some s ↔ v = some (.string s) := by
  constructor
  · intro is
    match v, is with
    | some (.string _), rfl => rfl
  · rintro rfl
    rfl

section

variable (json : Json) (t : Table) (id : Id) (name : Text)

theorem sound_unlessStr (s : Text) : Sound json (unlessStr name s) (.text s) := ⟨rfl, decide_eq_true rfl⟩

theorem sound_list (l : List Text) : Sound json (unlessStr name (json.toString l)) (.list l) :=
  ⟨congrArg (Option.getD · []) (json.round l), decide_eq_true rfl⟩

theorem sound_unlessStrOrEmpty (s : Text) : Sound json (unlessStrOrEmpty name s) (.text s) := ⟨rfl, decide_eq_true rfl⟩

theorem sound_unlessFlag (b : Bool) : Sound json (unlessFlag name b) (.flag b) := by cases b <;> exact ⟨rfl, rfl⟩

theorem sound_unlessBool (b : Bool) : Sound json (unlessBool name b) (.probed b) := ⟨rfl, decide_eq_true rfl⟩

theorem sound_unlessUnset (on : Bool) : Sound json (unlessUnset name on) (.flag on) := by cases on <;> exact ⟨rfl, rfl⟩

theorem sound_setStrOnce (v : Text) : Sound json (setStrOnce name v) (.text v) := ⟨rfl, decide_eq_true rfl⟩

theorem said_unlessStr (s : Text) : Said json t id (unlessStr name s) (.text s) := by
  intro same
  have is := field_of_flat (strOf_eq_some.mp (of_decide_eq_true same))
  rw [is]
  rfl

theorem said_list (l : List Text) : Said json t id (unlessStr name (json.toString l)) (.list l) := by
  intro same
  have is := field_of_flat (strOf_eq_some.mp (of_decide_eq_true same))
  rw [is]
  exact congrArg (Option.getD · []) (json.round l)

theorem said_unlessFlag (b : Bool) : Said json t id (unlessFlag name b) (.flag b) := by
  intro same
  have is : boolOf (field t id name) = b := of_decide_eq_true same
  exact is

theorem said_unlessBool (b : Bool) : Said json t id (unlessBool name b) (.probed b) := fun same =>
  field_of_flat (of_decide_eq_true same)

theorem said_unlessUnset (on : Bool) : Said json t id (unlessUnset name on) (.flag on) := by
  intro same
  obtain unset | is := Bool.or_eq_true_iff.mp same
  · obtain ⟨off, unseen⟩ := Bool.and_eq_true_iff.mp unset
    have off : on = false := by simpa using off
    have unseen : field t id name = none := Option.isNone_iff_eq_none.mp unseen
    rw [unlessUnset, Sees, unseen, off]
    rfl
  · rw [field_of_flat (of_decide_eq_true is)]
    cases on <;> rfl

theorem said_setStrOnce (v : Text) : Said json t id (setStrOnce name v) (.text v) := by
  intro same
  simp only [setStrOnce] at same ⊢
  cases flats : strOf (flat t id name) with
  | some was =>
      rw [flats] at same
      rw [field_of_flat (strOf_eq_some.mp flats), Sees]
      exact of_decide_eq_true same
  | none =>
      rw [flats] at same
      obtain ⟨empty, unseen⟩ := Bool.and_eq_true_iff.mp same
      rw [Option.isNone_iff_eq_none.mp unseen, Sees, of_decide_eq_true empty]
      rfl

/-- A register missing where the given text is empty counts as said already: then the reader is left with what the old
entry holds. -/
theorem said_unlessStrOrEmpty (s : Text) :
    Said json t id (unlessStrOrEmpty name s) (.text s) ↔
      (s = [] → flat t id name ≠ none ∨ (strOf (field t id name)).getD [] = []) := by
  constructor
  · rintro left rfl
    cases flats : flat t id name with
    | some v => exact .inl (Option.some_ne_none v)
    | none =>
        right
        apply left
        rw [unlessStrOrEmpty, flats]
        rfl
  · intro clear same
    have said : (strOf (flat t id name)).getD [] = s := of_decide_eq_true same
    show (strOf (field t id name)).getD [] = s
    cases flats : flat t id name with
    | some v => rw [field_of_flat flats, ← said, flats]
    | none =>
        rw [flats] at said
        subst said
        exact (clear rfl).elim (fun h => absurd flats h) fun h => h

end

/-- The one write of `setWatch`. -/
theorem said_setWatch (json : Json) (t : Table) (id : Id) (l : List Text) {w : Write} (mem : w ∈ setWatch json l) :
    Said json t id w (.list l) := by
  obtain rfl := List.mem_singleton.mp mem
  intro same
  obtain unset | is := Bool.or_eq_true_iff.mp same
  · obtain ⟨empty, unseen⟩ := Bool.and_eq_true_iff.mp unset
    rw [Option.isNone_iff_eq_none.mp unseen, Sees, List.isEmpty_iff.mp empty]
    rfl
  · rw [field_of_flat (strOf_eq_some.mp (of_decide_eq_true is))]
    exact congrArg (Option.getD · []) (json.round l)

theorem sound_setWatch (json : Json) (l : List Text) {w : Write} (mem : w ∈ setWatch json l) : Sound json w (.list l) := by
  obtain rfl := List.mem_singleton.mp mem
  refine ⟨congrArg (Option.getD · []) (json.round l), ?_⟩
  rw [Bool.or_eq_true]
  exact .inr (decide_eq_true rfl)

/-! ### Every setter -/

/-- A call means what it says exactly when every write it leaves out was said already. -/
theorem faithful_iff {json : Json} {call : Call} (parts : List (Write × Given))
    (writes : call.writes json = parts.map Prod.fst) (gives : call.gives = parts.map fun q => (q.1.name, q.2))
    (distinct : (parts.map fun q => q.1.name).Nodup) (sound : ∀ q ∈ parts, Sound json q.1 q.2) (t : Table) (id : Id) :
    Faithful json t id call ↔ ∀ q ∈ parts, Said json t id q.1 q.2 := by
  have names : (call.writes json).map Write.name = parts.map fun q => q.1.name := by
    rw [writes, List.map_map]
    rfl
  have nodup : ((call.writes json).map Write.name).Nodup := names ▸ distinct
  have there {q : Write × Given} (mem : q ∈ parts) : q.1 ∈ call.writes json := writes ▸ List.mem_map_of_mem mem
  constructor
  · intro faithful q mem same
    have left := @applyAll_at id _ nodup _ (there mem) t
    rw [if_pos same] at left
    have read := faithful.named (q.1.name, q.2) (gives ▸ List.mem_map_of_mem mem)
    rw [Call.run, (Prod.mk.inj left).2] at read
    exact read
  · intro said
    refine ⟨?_, ?_, ?_⟩
    · intro p mem
      rw [gives] at mem
      obtain ⟨q, inside, rfl⟩ := List.mem_map.mp mem
      have left := @applyAll_at id _ nodup _ (there inside) t
      rw [Call.run]
      by_cases same : q.1.same (flat t id q.1.name) (field t id q.1.name) = true
      · rw [if_pos same] at left
        rw [(Prod.mk.inj left).2]
        exact said q inside same
      · rw [if_neg same] at left
        rw [(Prod.mk.inj left).2]
        exact (sound q inside).made
    · intro id' name other
      have fields : call.gives.map Prod.fst = parts.map fun q => q.1.name := by
        rw [gives, List.map_map]
        rfl
      rw [fields, ← names] at other
      exact (Prod.mk.inj (applyAll_other other t)).2
    · apply applyAll_again nodup
      intro w mem
      rw [writes] at mem
      obtain ⟨q, inside, rfl⟩ := List.mem_map.mp mem
      exact (sound q inside).stable

/-- The writes of an ssh road before its host, with what the road gives them. -/
def SshRoad.parts (road : SshRoad) : List (Write × Given) :=
  [(unlessStrOrEmpty F_SSH_JUMP (road.jump.getD []), .text (road.jump.getD [])),
    (unlessStrOrEmpty F_SSH_PORT road.portText, .text road.portText),
    (unlessFlag F_SSH_PASSWORD road.password, .flag road.password),
    (unlessStrOrEmpty F_SSH_IDENTITY (road.identity.getD []), .text (road.identity.getD [])),
    (unlessFlag F_SSH_PASSPHRASE road.passphrase, .flag road.passphrase)]

theorem SshRoad.sound (road : SshRoad) (json : Json) : ∀ q ∈ road.parts, Sound json q.1 q.2 := by
  simp only [SshRoad.parts, List.forall_mem_cons]
  exact ⟨sound_unlessStrOrEmpty _ _ _, sound_unlessStrOrEmpty _ _ _, sound_unlessFlag _ _ _,
    sound_unlessStrOrEmpty _ _ _, sound_unlessFlag _ _ _, List.forall_mem_nil _⟩

/-- Of a road's writes only those of its options can be wrong when left out. -/
theorem SshRoad.said_iff (road : SshRoad) (json : Json) (t : Table) (id : Id) :
    (∀ q ∈ road.parts, Said json t id q.1 q.2) ↔
      ∀ p ∈ road.options, p.2 = [] → flat t id p.1 ≠ none ∨ (strOf (field t id p.1)).getD [] = [] := by
  have password := said_unlessFlag json t id F_SSH_PASSWORD road.password
  have passphrase := said_unlessFlag json t id F_SSH_PASSPHRASE road.passphrase
  simp only [SshRoad.parts, SshRoad.options, List.forall_mem_cons, said_unlessStrOrEmpty, password, passphrase,
    true_and, List.not_mem_nil, false_imp_iff, implies_true, and_true]

/-- A call without options means what it says on every table. -/
theorem faithful_always {json : Json} {call : Call} (parts : List (Write × Given))
    (writes : call.writes json = parts.map Prod.fst) (gives : call.gives = parts.map fun q => (q.1.name, q.2))
    (distinct : (parts.map fun q => q.1.name).Nodup) (none : call.options = [])
    (both : ∀ q ∈ parts, Sound json q.1 q.2 ∧ Said json t id q.1 q.2) :
    Faithful json t id call ↔ Clearable t id call := by
  have said := (faithful_iff parts writes gives distinct (fun q mem => (both q mem).1) t id).mpr fun q mem =>
    (both q mem).2
  refine iff_of_true said fun p mem => ?_
  rw [none] at mem
  exact absurd mem List.not_mem_nil

theorem faithful_upsert (json : Json) (t : Table) (id : Id) (name : Text) (addrs : List Text) :
    Faithful json t id (.upsert name addrs) ↔ Clearable t id (.upsert name addrs) := by
  apply faithful_always [(unlessStr F_NAME name, .text name), (unlessStr F_ADDRS (json.toString addrs), .list addrs)]
    rfl rfl (by decide : [F_NAME, F_ADDRS].Nodup) rfl
  simp only [List.forall_mem_cons]
  exact ⟨⟨sound_unlessStr _ _ _, said_unlessStr _ _ _ _ _⟩, ⟨sound_list _ _ _, said_list _ _ _ _ _⟩,
    List.forall_mem_nil _⟩

theorem faithful_setReceiveResolved (json : Json) (t : Table) (id : Id) (setting why : Text) :
    Faithful json t id (.setReceiveResolved setting why) ↔ Clearable t id (.setReceiveResolved setting why) := by
  apply faithful_always [(setStrOnce F_RECEIVE_FOR setting, .text setting), (setStrOnce F_RECEIVE_WHY why, .text why)]
    rfl rfl (by decide : [F_RECEIVE_FOR, F_RECEIVE_WHY].Nodup) rfl
  simp only [List.forall_mem_cons]
  exact ⟨⟨sound_setStrOnce _ _ _, said_setStrOnce _ _ _ _ _⟩, ⟨sound_setStrOnce _ _ _, said_setStrOnce _ _ _ _ _⟩,
    List.forall_mem_nil _⟩

/-- A setter of one field. -/
theorem faithful_one {json : Json} {call : Call} (w : Write) (g : Given) (writes : call.writes json = [w])
    (gives : call.gives = [(w.name, g)]) (none : call.options = []) (sound : Sound json w g)
    (said : Said json t id w g) : Faithful json t id call ↔ Clearable t id call := by
  apply faithful_always [(w, g)] writes gives (List.pairwise_singleton _ _) none
  intro q mem
  obtain rfl := List.mem_singleton.mp mem
  exact ⟨sound, said⟩

section

variable (json : Json) (t : Table) (id : Id)

theorem faithful_setSatellite (sponsor : Text) (road : SshRoad) (tmux : Bool) :
    Faithful json t id (.setSatellite sponsor road tmux) ↔ Clearable t id (.setSatellite sponsor road tmux) := by
  let parts : List (Write × Given) := road.parts ++ [(unlessStr F_SPONSOR sponsor, .text sponsor),
    (unlessStr F_SSH_HOST road.host, .text road.host), (unlessBool F_SAT_TMUX tmux, .probed tmux)]
  have distinct : [F_SSH_JUMP, F_SSH_PORT, F_SSH_PASSWORD, F_SSH_IDENTITY, F_SSH_PASSPHRASE, F_SPONSOR, F_SSH_HOST,
    F_SAT_TMUX].Nodup := by decide
  have sound : ∀ q ∈ parts, Sound json q.1 q.2 := by
    simp only [parts, List.forall_mem_append, List.forall_mem_cons]
    exact ⟨road.sound json, sound_unlessStr _ _ _, sound_unlessStr _ _ _, sound_unlessBool _ _ _, List.forall_mem_nil _⟩
  have own := said_unlessStr json t id F_SPONSOR sponsor
  have host := said_unlessStr json t id F_SSH_HOST road.host
  have probed := said_unlessBool json t id F_SAT_TMUX tmux
  rw [@faithful_iff json (.setSatellite sponsor road tmux) parts rfl rfl distinct sound t id]
  simp only [parts, List.forall_mem_append, List.forall_mem_cons, road.said_iff, own, host, probed,
    List.not_mem_nil, false_imp_iff, implies_true, and_true]
  rfl

theorem faithful_setCarried (carrier : Option Text) (road : Option SshRoad) :
    Faithful json t id (.setCarried carrier road) ↔ Clearable t id (.setCarried carrier road) := by
  let first : Write × Given := (unlessStrOrEmpty F_CARRIER (carrier.getD []), .text (carrier.getD []))
  have sound : Sound json first.1 first.2 := sound_unlessStrOrEmpty _ _ _
  cases road with
  | none =>
      have all : ∀ q ∈ [first], Sound json q.1 q.2 := List.forall_mem_singleton.mpr sound
      rw [@faithful_iff json (.setCarried carrier none) [first] rfl rfl (List.pairwise_singleton _ _) all t id]
      simp only [first, List.forall_mem_singleton, said_unlessStrOrEmpty, Clearable, Call.options, Option.map_none,
        Option.getD_none]
  | some road =>
      let parts : List (Write × Given) := first :: road.parts ++ [(unlessStr F_SSH_HOST road.host, .text road.host)]
      have distinct : [F_CARRIER, F_SSH_JUMP, F_SSH_PORT, F_SSH_PASSWORD, F_SSH_IDENTITY, F_SSH_PASSPHRASE,
        F_SSH_HOST].Nodup := by decide
      have all : ∀ q ∈ parts, Sound json q.1 q.2 := by
        simp only [parts, List.cons_append, List.forall_mem_append, List.forall_mem_cons]
        exact ⟨sound, road.sound json, sound_unlessStr _ _ _, List.forall_mem_nil _⟩
      have host := said_unlessStr json t id F_SSH_HOST road.host
      rw [@faithful_iff json (.setCarried carrier (some road)) parts rfl rfl distinct all t id]
      simp only [parts, first, List.cons_append, List.forall_mem_append, List.forall_mem_cons, road.said_iff,
        said_unlessStrOrEmpty, host, List.not_mem_nil, false_imp_iff, implies_true, and_true, Clearable,
        Call.options, Option.map_some, Option.getD_some]

/-- A call means what it says exactly when no option is given as none over a value only the old entry holds. -/
theorem faithful_iff_clearable (call : Call) : Faithful json t id call ↔ Clearable t id call := by
  cases call with
  | upsert name addrs => exact faithful_upsert json t id name addrs
  | setStyle style => exact faithful_one _ _ rfl rfl rfl (sound_unlessStr _ _ _) (said_unlessStr _ _ _ _ _)
  | setPinned on => exact faithful_one _ _ rfl rfl rfl (sound_unlessUnset _ _ _) (said_unlessUnset _ _ _ _ _)
  | setWatch paths =>
      exact faithful_one _ _ rfl rfl rfl (sound_setWatch json paths (.head _))
        (said_setWatch json t id paths (.head _))
  | setReceiveDir dir => exact faithful_one _ _ rfl rfl rfl (sound_setStrOnce _ _ _) (said_setStrOnce _ _ _ _ _)
  | setReceiveResolved setting why => exact faithful_setReceiveResolved json t id setting why
  | setSatellite sponsor road tmux => exact faithful_setSatellite json t id sponsor road tmux
  | setCarried carrier road => exact faithful_setCarried json t id carrier road
  | setGone on => exact faithful_one _ _ rfl rfl rfl (sound_unlessUnset _ _ _) (said_unlessUnset _ _ _ _ _)

end

/-! ### Rows thrown away -/

theorem lookup_eraseAll (l : List Text) (map : AList fun _ : Text => Entry) (k : Text) :
    (l.foldl (fun map k => map.erase k) map).lookup k = if k ∈ l then none else map.lookup k := by
  induction l generalizing map with
  | nil => rfl
  | cons a l ih =>
      rw [List.foldl_cons, ih]
      by_cases later : k ∈ l
      · rw [if_pos later, if_pos (List.mem_cons_of_mem a later)]
      · rw [if_neg later]
        by_cases here : k = a
        · subst here
          rw [AList.lookup_erase, if_pos List.mem_cons_self]
        · rw [AList.lookup_erase_ne here, if_neg (by rw [List.mem_cons]; exact not_or.mpr ⟨here, later⟩)]

theorem lookup_keepOnly (t : Table) (id : Id) (k : Text) :
    (keepOnly t id).map.lookup k = if owner k = id.text then t.map.lookup k else none := by
  have doomed : k ∈ t.map.keys.filter (fun k => owner k ≠ id.text) ↔ k ∈ t.map ∧ owner k ≠ id.text := by
    rw [List.mem_filter, decide_eq_true_eq, AList.mem_keys]
  have absent : k ∉ t.map → t.map.lookup k = none := AList.lookup_eq_none.mpr
  unfold keepOnly
  dsimp only
  split
  · rename_i none
    rw [none] at doomed
    by_cases own : owner k = id.text
    · rw [if_pos own]
    · rw [if_neg own]
      exact absent fun mem => absurd (doomed.mpr ⟨mem, own⟩) List.not_mem_nil
  · rw [lookup_eraseAll]
    by_cases own : owner k = id.text
    · rw [if_pos own, if_neg (fun mem => (doomed.mp mem).2 own)]
    · rw [if_neg own]
      split
      · rfl
      · rename_i kept
        exact absent fun mem => kept (doomed.mpr ⟨mem, own⟩)

/-- The kept row reads as before. -/
theorem field_keepOnly (t : Table) (id : Id) (name : Text) : field (keepOnly t id) id name = field t id name := by
  have key : (keepOnly t id).map.lookup (fkey id name) = t.map.lookup (fkey id name) := by
    rw [lookup_keepOnly, if_pos (owner_fkey id name)]
  have row : (keepOnly t id).map.lookup id.text = t.map.lookup id.text := by
    rw [lookup_keepOnly, if_pos (owner_id id)]
  rw [field_eq, field_eq, flat, flat, nested, nested, key, row]

/-- And is the only one. -/
theorem ids_keepOnly (t : Table) (id : Id) {other : Text} (listed : other ∈ ids (keepOnly t id)) : other = id.text := by
  rw [ids, List.mem_eraseDups] at listed
  obtain ⟨k, mem, rfl⟩ := List.mem_map.mp listed
  have found : (keepOnly t id).map.lookup k ≠ none := fun none => AList.lookup_eq_none.mp none (AList.mem_keys.mpr mem)
  rw [lookup_keepOnly] at found
  by_contra apart
  rw [if_neg apart] at found
  exact found rfl

/-- Setters mean what they say where no value that only the old entry holds is cleared through a missing register, and
only there; throwing the other rows away leaves the kept one as it reads. -/
theorem setters_faithful (json : Json) (t : Table) (id : Id) :
    (∀ call, Faithful json t id call ↔ Clearable t id call) ∧
      (∀ name, field (keepOnly t id) id name = field t id name) ∧ ∀ other ∈ ids (keepOnly t id), other = id.text :=
  ⟨faithful_iff_clearable json t id, field_keepOnly t id, fun _ listed => ids_keepOnly t id listed⟩

/-- A machine whose jump stands in the old nested entry only. -/
def oldJump : Table where
  map := AList.singleton ['a'] (.row (AList.singleton F_SSH_JUMP (.string ['j'])))
  writes := 0

def idA : Id := ⟨['a'], by decide⟩

/-- A direct road. -/
def direct : SshRoad := ⟨['h'], none, none, false, none, false⟩

/-- Adopted again without a jump, it is still read with the old one. -/
theorem jump_survives :
    field (applyAll oldJump idA (setSatellite ['b'] direct true)) idA F_SSH_JUMP = some (.string ['j']) ∧
      ∀ json, ¬ Faithful json oldJump idA (.setSatellite ['b'] direct true) := by
  have seen : field (applyAll oldJump idA (setSatellite ['b'] direct true)) idA F_SSH_JUMP = some (.string ['j']) := by
    decide
  refine ⟨seen, fun json faithful => ?_⟩
  have read : (strOf (field (applyAll oldJump idA (setSatellite ['b'] direct true)) idA F_SSH_JUMP)).getD [] = [] :=
    faithful.named (F_SSH_JUMP, .text []) (.head _)
  rw [seen] at read
  cases read

/-! ### Lists of plain strings -/

/-- The rest of a quoted string: a quote and a backslash stand after a backslash. -/
def quoted : Text → Text
  | [] => ['"']
  | c :: s => if c = '"' ∨ c = '\\' then '\\' :: c :: quoted s else c :: quoted s

/-- A string up to its closing quote, and what is after it; `taken` after a backslash. -/
def unquoted (taken : Bool) : Text → Option (Text × Text)
  | [] => none
  | c :: s =>
      if taken = false ∧ c = '"' then some ([], s)
      else if taken = false ∧ c = '\\' then unquoted true s
      else (unquoted false s).map fun read => (c :: read.1, read.2)

theorem unquoted_quoted (s rest : Text) : unquoted false (quoted s ++ rest) = some (s, rest) := by
  induction s with
  | nil => rfl
  | cons c s ih =>
      unfold quoted
      split
      · rename_i special
        simp [unquoted, ih]
      · rename_i plain
        rw [not_or] at plain
        simp [unquoted, ih, plain]

/-- The strings of a list after the first bracket or string. -/
def items : List Text → Text
  | [] => [']']
  | s :: l => ',' :: '"' :: quoted s ++ items l

def readItems : Nat → Text → Option (List Text)
  | _, [']'] => some []
  | fuel + 1, ',' :: '"' :: s => (unquoted false s).bind fun read => (readItems fuel read.2).map (read.1 :: ·)
  | _, _ => none

theorem readItems_items (l : List Text) {fuel : Nat} (le : l.length ≤ fuel) : readItems fuel (items l) = some l := by
  induction l generalizing fuel with
  | nil => cases fuel <;> rfl
  | cons s l ih =>
      obtain ⟨fuel, rfl⟩ := Nat.exists_eq_add_of_le' (Nat.lt_of_lt_of_le (Nat.succ_pos _) le)
      show (unquoted false (quoted s ++ items l)).bind (fun read => (readItems fuel read.2).map (read.1 :: ·)) = _
      rw [unquoted_quoted, Option.bind_some, ih (Nat.le_of_succ_le_succ le)]
      rfl

theorem length_items (l : List Text) : l.length < (items l).length := by
  induction l with
  | nil => exact Nat.zero_lt_one
  | cons s l ih =>
      simp only [items, List.cons_append, List.length_cons, List.length_append]
      omega

/-- JSON as it is of strings without control characters. -/
def bracketed : Json where
  toString l := '[' :: (items l).drop (if l = [] then 0 else 1)
  fromStr
    | '[' :: s => readItems s.length (if s = [']'] then s else ',' :: s)
    | _ => none
  round l := by
    cases l with
    | nil => rfl
    | cons s l =>
        have some_ : '"' :: quoted s ++ items l ≠ [']'] := by simp
        show readItems ('"' :: quoted s ++ items l).length (if '"' :: quoted s ++ items l = [']'] then _ else _) = _
        rw [if_neg some_]
        refine readItems_items (s :: l) ?_
        have long := length_items l
        simp only [List.cons_append, List.length_cons, List.length_append]
        omega

/-- A call that gives a list, and one that is not faithful. -/
theorem setters_faithful_upsert :
    Faithful bracketed oldJump idA (.upsert ['b'] [['x'], ['"']]) ∧
      (strOf (field ((Call.upsert ['b'] [['x'], ['"']]).run bracketed oldJump idA) idA F_ADDRS) =
        some ['[', '"', 'x', '"', ',', '"', '\\', '"', '"', ']']) ∧
      ¬ Faithful bracketed oldJump idA (.setSatellite ['b'] direct true) := by
  obtain ⟨calls, -⟩ := setters_faithful bracketed oldJump idA
  refine ⟨(calls _).mpr fun _ none_ => absurd none_ List.not_mem_nil, by decide, fun faithful => ?_⟩
  obtain flat_ | seen := (calls _).mp faithful (F_SSH_JUMP, []) (.head _) rfl
  · exact flat_ (by decide)
  · exact absurd seen (by decide)

end Khor.Devices
