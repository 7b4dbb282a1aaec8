/-
Module: Khor.Sync.Devices
Purpose: The device table: one flat register per machine and field, the nested entry an older version wrote behind it, and
  the setters. Each setter is its writes in order; a write is left out where the register already says the same, and
  what counts as the same is that setter's own comparison.
Trusted boundary: loro's map as a map that takes every write; the text of a list as a codec that is read back; device
  ids are public keys in hex, so none holds the separator
Main exports: Id, Value, Entry, flat, field
-/
import Khor.Lib.Decimal

namespace Khor.Devices

def SEP : Char := '/'

/-- A machine's id: its public key in hex, so the separator is never in it. -/
structure Id where
  text : Text
  plain : SEP ∉ text
deriving DecidableEq

inductive Value where
  | string (s : Text)
  | bool (b : Bool)
  /-- Values of any other type. -/
  | other (n : Nat)
deriving DecidableEq

/-- What stands under a key: a register, or the entry an older version nested under an id. -/
inductive Entry where
  | register (v : Value)
  | row (fields : AList fun _ : Text => Value)

structure Table where
  map : AList fun _ : Text => Entry
  /-- How many writes the table has taken. -/
  writes : Nat

def fkey (id : Id) (name : Text) : Text := id.text ++ SEP :: name

/-- One field's flat register. -/
def flat (t : Table) (id : Id) (name : Text) : Option Value :=
  match t.map.lookup (fkey id name) with
  | some (.register v) => some v
  | _ => none

def strOf : Option Value → Option Text
  | some (.string s) => some s
  | _ => none

/-- The old nested entry's value of a field. -/
def nested (t : Table) (id : Id) (name : Text) : Option Value :=
  match t.map.lookup id.text with
  | some (.row fields) => fields.lookup name
  | _ => none

/-- One field as a reader sees it: the flat register if there is one, otherwise what the nested entry holds. -/
def field (t : Table) (id : Id) (name : Text) : Option Value :=
  match flat t id name with
  | some v => some v
  | none => nested t id name

/-- A flag that was never written reads false. -/
def boolOf (v : Option Value) : Bool := v = some (.bool true)

def legacyEntry (map : AList fun _ : Text => Entry) (id : Id) : AList fun _ : Text => Value :=
  match map.lookup id.text with
  | some (.row fields) => fields
  | _ => ∅

/-- One field into the flat register and into the nested entry behind it. -/
def writeField (t : Table) (id : Id) (name : Text) (v : Value) : Table :=
  let map := t.map.insert (fkey id name) (.register v)
  { map := map.insert id.text (.row ((legacyEntry map id).insert name v)), writes := t.writes + 1 }

/-- A write a setter makes unless the register, or what a reader sees, says the same already. -/
structure Write where
  name : Text
  value : Value
  same : (flat seen : Option Value) → Bool

def Write.apply (t : Table) (id : Id) (w : Write) : Table :=
  if w.same (flat t id w.name) (field t id w.name) then t else writeField t id w.name w.value

def applyAll (t : Table) (id : Id) (writes : List Write) : Table := writes.foldl (fun t w => w.apply t id) t

/-! ### Comparisons -/

/-- `flat_str(..) != Some(s)`. -/
def unlessStr (name s : Text) : Write := ⟨name, .string s, fun flat _ => strOf flat = some s⟩

/-- `flat_str(..).unwrap_or_default() != s`: no register counts as an empty one. -/
def unlessStrOrEmpty (name s : Text) : Write := ⟨name, .string s, fun flat _ => (strOf flat).getD [] = s⟩

/-- `bool_field(..) != b`. -/
def unlessFlag (name : Text) (b : Bool) : Write := ⟨name, .bool b, fun _ seen => boolOf seen = b⟩

/-- `flat(..) != Some(Bool(b))`. -/
def unlessBool (name : Text) (b : Bool) : Write := ⟨name, .bool b, fun flat _ => flat = some (.bool b)⟩

/-- A flag nobody ever wrote is not written false. -/
def unlessUnset (name : Text) (on : Bool) : Write :=
  ⟨name, .bool on, fun flat seen => (!on && seen.isNone) || flat = some (.bool on)⟩

/-- `set_str_once`: empty is stored rather than deleted, unless it was never written at all. -/
def setStrOnce (name v : Text) : Write :=
  ⟨name, .string v, fun flat seen =>
    match strOf flat with
    | some was => was = v
    | none => v = [] && seen.isNone⟩

/-! ### Fields -/

def F_NAME : Text := ['n', 'a', 'm', 'e']
def F_ADDRS : Text := ['a', 'd', 'd', 'r', 's']
def F_STYLE : Text := ['s', 't', 'y', 'l', 'e']
def F_PINNED : Text := ['p', 'i', 'n', 'n', 'e', 'd']
def F_GONE : Text := ['g', 'o', 'n', 'e']
def F_SPONSOR : Text := ['s', 'p', 'o', 'n', 's', 'o', 'r']
def F_SSH_HOST : Text := ['s', 's', 'h', '_', 'h', 'o', 's', 't']
def F_SSH_JUMP : Text := ['s', 's', 'h', '_', 'j', 'u', 'm', 'p']
def F_SSH_PORT : Text := ['s', 's', 'h', '_', 'p', 'o', 'r', 't']
def F_SSH_PASSWORD : Text := ['s', 's', 'h', '_', 'p', 'a', 's', 's', 'w', 'o', 'r', 'd']
def F_SSH_IDENTITY : Text := ['s', 's', 'h', '_', 'i', 'd', 'e', 'n', 't', 'i', 't', 'y']
def F_SSH_PASSPHRASE : Text := ['s', 's', 'h', '_', 'p', 'a', 's', 's', 'p', 'h', 'r', 'a', 's', 'e']
def F_SAT_TMUX : Text := ['s', 'a', 't', '_', 't', 'm', 'u', 'x']
def F_CARRIER : Text := ['c', 'a', 'r', 'r', 'i', 'e', 'r']
def F_WATCH : Text := ['w', 'a', 't', 'c', 'h']
def F_RECEIVE_DIR : Text := ['r', 'e', 'c', 'e', 'i', 'v', 'e', '_', 'd', 'i', 'r']
def F_RECEIVE_FOR : Text := ['r', 'e', 'c', 'e', 'i', 'v', 'e', '_', 'f', 'o', 'r']
def F_RECEIVE_WHY : Text := ['r', 'e', 'c', 'e', 'i', 'v', 'e', '_', 'w', 'h', 'y']

/-! ### Setters -/

/-- Lists of strings as text and back. -/
structure Json where
  toString : List Text → Text
  fromStr : Text → Option (List Text)
  round : ∀ l, fromStr (toString l) = some l

/-- A satellite's ssh road as its row keeps it. -/
structure SshRoad where
  host : Text
  port : Option UInt16
  jump : Option Text
  password : Bool
  identity : Option Text
  passphrase : Bool

/-- The port in decimal, empty for none. -/
def SshRoad.portText (road : SshRoad) : Text := (road.port.map fun p => decimal p.toNat).getD []

def upsert (json : Json) (name : Text) (addrs : List Text) : List Write :=
  [unlessStr F_NAME name, unlessStr F_ADDRS (json.toString addrs)]

def setStyle (style : Text) : List Write := [unlessStr F_STYLE style]

def setPinned (on : Bool) : List Write := [unlessUnset F_PINNED on]

/-- No list where nobody ever set one is not written. -/
def setWatch (json : Json) (paths : List Text) : List Write :=
  [⟨F_WATCH, .string (json.toString paths), fun flat seen =>
    (paths.isEmpty && seen.isNone) || strOf flat = some (json.toString paths)⟩]

def setReceiveDir (dir : Text) : List Write := [setStrOnce F_RECEIVE_DIR dir]

def setReceiveResolved (setting why : Text) : List Write :=
  [setStrOnce F_RECEIVE_FOR setting, setStrOnce F_RECEIVE_WHY why]

def setSatellite (sponsor : Text) (road : SshRoad) (tmux : Bool) : List Write :=
  [unlessStrOrEmpty F_SSH_JUMP (road.jump.getD []), unlessStrOrEmpty F_SSH_PORT road.portText,
    unlessFlag F_SSH_PASSWORD road.password, unlessStrOrEmpty F_SSH_IDENTITY (road.identity.getD []),
    unlessFlag F_SSH_PASSPHRASE road.passphrase, unlessStr F_SPONSOR sponsor, unlessStr F_SSH_HOST road.host,
    unlessBool F_SAT_TMUX tmux]

/-- No carrier stops carrying it; without a road the road is left as it was. -/
def setCarried (carrier : Option Text) (road : Option SshRoad) : List Write :=
  unlessStrOrEmpty F_CARRIER (carrier.getD []) ::
    match road with
    | none => []
    | some road =>
        [unlessStrOrEmpty F_SSH_JUMP (road.jump.getD []), unlessStrOrEmpty F_SSH_PORT road.portText,
          unlessFlag F_SSH_PASSWORD road.password, unlessStrOrEmpty F_SSH_IDENTITY (road.identity.getD []),
          unlessFlag F_SSH_PASSPHRASE road.passphrase, unlessStr F_SSH_HOST road.host]

def setGone (on : Bool) : List Write := [unlessUnset F_GONE on]

/-! ### Rows -/

/-- `split_once(SEP)`. -/
def splitOnce : Text → Option (Text × Text)
  | [] => none
  | c :: rest => if c = SEP then some ([], rest) else (splitOnce rest).map fun (front, back) => (c :: front, back)

/-- Whose a key is: the id before the separator, or the id itself under which an old entry is nested. -/
def owner (key : Text) : Text :=
  match splitOnce key with
  | some (id, _) => id
  | none => key

/-- Every machine the table knows, from either shape. -/
def ids (t : Table) : List Text := (t.map.keys.map owner).eraseDups

/-- Throws every row away but one. -/
def keepOnly (t : Table) (id : Id) : Table :=
  let doomed := t.map.keys.filter fun k => owner k ≠ id.text
  if doomed = [] then t
  else { map := doomed.foldl (fun map k => map.erase k) t.map, writes := t.writes + 1 }

end Khor.Devices
