/-
Module: Khor.Net.Table
Purpose: The rosters in the device tables of one network's machines, and what changes them: root holders that
  sign the next roster, pairings, vouches, and tables that merge in any order
  (crates/node/src/trust.rs, crates/sync/src/devices.rs).
Trusted boundary: a table is loro's map of last-writer-wins registers; only root holders sign with the root
Main exports: Table, storeRoster, newestIn, Machine, Signing
-/
import Khor.Net.Settle
import Khor.Lib.Register
import Khor.Lib.Runs

namespace Khor.Net

/-- A key of the trust map: a roster's number and the tail of its signature, or a pairing's archive. -/
inductive RosterKey where
  | version (seq : UInt64) (tail : List UInt8)
  | archive (pairing recipient : Id)
deriving DecidableEq

abbrev Table := Register RosterKey (List UInt8)

/-- `roster_key`. -/
def rosterKey (r : Roster) : RosterKey := .version r.seq (r.bytes.drop (r.bytes.length - 8))

namespace Table

variable (scheme : Scheme)

/-- Every stored roster, unverified. -/
def rosters (t : Table) : List (RosterKey × List UInt8) := Register.entries t

def dropRosters (t : Table) (peer : Nat) (keys : List RosterKey) : Table :=
  keys.foldl (fun t k => Register.delete t peer k) t

/-- The numbers that a stored roster replaces. -/
def older (r : Roster) : RosterKey → Bool
  | .version seq _ => seq < r.seq
  | .archive _ _ => false

/-- The keys of rosters that are not archived. -/
def isVersion : RosterKey → Bool
  | .version _ _ => true
  | .archive _ _ => false

/-- `store_roster_at`. -/
def storeRoster (t : Table) (peer : Nat) (r : Roster) : Table :=
  let t : Table := Register.put t peer (rosterKey r) r.bytes
  t.dropRosters peer ((t.rosters.map (·.1)).filter (older r))

/-- `newest_in`. -/
def newestIn (t : Table) (anchor : Id) : Option Roster := newest scheme (t.rosters.map (·.2)) anchor

end Table

def REFRESH_DAYS : Nat := 7

def Roster.needsRefresh (r : Roster) (nowMs : UInt64) : Bool :=
  REFRESH_DAYS * DAY_MS < nowMs.toNat - r.issuedMs.toNat

/-- A settlement that is ready: what a pairing makes of this side. A digest stands for its bytes; `covered` says
that the table has what it asks for. -/
structure Settlement where
  pairing : Id
  beforeAnchor : Option Id
  beforeRoster : Option (List UInt8)
  desiredAnchor : Option Id
  desired : Option Roster
  input : List UInt8
  covered : Bool

structure Machine where
  id : Id
  peer : Nat
  /-- The public half of the root key on this machine. -/
  rootKey : Option Id
  anchor : Option Id
  table : Table
  settlement : Option Settlement

/-- What was signed with the root: the roster, over which one, and what the signer had before it. -/
structure Signing where
  base : Roster
  changes : List Change
  roster : Roster
  seen : Table
  offered : List UInt8

/-- A machine waiting for a root holder. -/
structure PendingRow where
  id : Id
  leave : Bool
  sponsor : Option Id

/-- What an operation leaves: the machine, and what it signed. -/
structure Done where
  machine : Machine
  signed : List Signing

section Operations

variable (scheme : Scheme) (key : scheme.SecretKey)

/-- Whether this machine holds the network's root. -/
def Machine.holdsRoot (m : Machine) : Bool :=
  m.rootKey = some (scheme.public key) && m.anchor = some (scheme.public key)

def verified (bytes : List UInt8) : Option Roster := (verifyRoster scheme bytes (scheme.public key)).toOption

/-- A roster, or one that certifies this machine where there is none. -/
def Machine.orGenesis (m : Machine) (nowMs : UInt64) : Option Roster → Option Roster
  | some r => some r
  | none => verified scheme key (genesis scheme key nowMs [⟨m.id, .device, none⟩])

/-- `sign_next`. -/
def Machine.signNext (m : Machine) (nowMs : UInt64) (c : Change) : Option Signing := do
  let cur ← m.orGenesis scheme key nowMs (m.table.newestIn scheme (scheme.public key))
  let r ← verified scheme key (cur.change scheme key c)
  some ⟨cur, [c], r, m.table, []⟩

/-- Signed, and stored here. -/
def Machine.signed (m : Machine) (s : Signing) : Done :=
  ⟨{ m with table := m.table.storeRoster m.peer s.roster }, [s]⟩

/-- `certify_self`: the first roster of the root, or this machine on the next one. -/
def Machine.certifySelf (m : Machine) (nowMs : UInt64) : Option Done :=
  match m.table.newestIn scheme (scheme.public key) with
  | some r =>
      if r.admits m.id nowMs then some ⟨m, []⟩
      else (m.signNext scheme key nowMs (.admitMember nowMs ⟨m.id, .device, none⟩)).map m.signed
  | none =>
      (verified scheme key (genesis scheme key nowMs [⟨m.id, .device, none⟩])).map fun r =>
        m.signed ⟨r, [], r, m.table, []⟩

/-- `approve_here`, the machine it names being found. -/
def Machine.approveHere (m : Machine) (row : PendingRow) (nowMs : UInt64) : Option Done :=
  if m.settlement.isSome || !m.holdsRoot scheme key then none
  else if row.leave then (m.signNext scheme key nowMs (.revoke nowMs row.id)).map m.signed
  else
    let kind := if row.sponsor.isSome then .satellite else .device
    (m.signNext scheme key nowMs (.admitMember nowMs ⟨row.id, kind, row.sponsor⟩)).map m.signed

/-- `revoke_here`. -/
def Machine.revokeHere (m : Machine) (id : Id) (nowMs : UInt64) : Option Done :=
  if m.settlement.isSome || !m.holdsRoot scheme key || id = m.id then none
  else if (m.table.newestIn scheme (scheme.public key)).any (·.isRevoked id) then none
  else (m.signNext scheme key nowMs (.revoke nowMs id)).map m.signed

/-- `standing_in`: how another machine stands here; `presented` is the certificate on its row. -/
def Machine.standingIn (m : Machine) (id : Id) (presented : Option (List UInt8)) (nowMs : UInt64) : Standing :=
  standing scheme (m.anchor.bind (m.table.newestIn scheme ·)) m.anchor id presented nowMs

/-- `adopt_from_table`: the root of the newest roster that names this machine. -/
def Machine.adoptFromTable (m : Machine) (nowMs : UInt64) : Option Id :=
  let named := (m.table.rosters.filterMap fun row =>
    (claimedRoot row.2).bind fun root => (verifyRoster scheme row.2 root).toOption).filter (·.admits m.id nowMs)
  (named.reverse.argmax fun r => r.seq.toNat).map (·.root)

/-- `trust_tick`. -/
def Machine.trustTick (m : Machine) (nowMs : UInt64) : Option Done :=
  if m.settlement.isSome then none
  else if m.anchor = none then
    if m.rootKey = none then some ⟨{ m with anchor := m.adoptFromTable scheme nowMs }, []⟩ else some ⟨m, []⟩
  else if m.holdsRoot scheme key && (m.table.newestIn scheme (scheme.public key)).any (·.needsRefresh nowMs) then
    (m.signNext scheme key nowMs (.refresh nowMs)).map m.signed
  else some ⟨m, []⟩

/-- `take_vouch`; `gone` says whether the table has shown the machine the door. -/
def Machine.takeVouch (m : Machine) (remote : Id) (bytes : List UInt8) (gone : Bool) (nowMs : UInt64) :
    Option Done := do
  let anchor ← m.anchor
  let r ← (verifyRoster scheme bytes anchor).toOption
  if m.settlement.isSome || r.isStale nowMs || !r.admits remote nowMs || !r.admits m.id nowMs then none
  else if (m.table.newestIn scheme anchor).any (fun mine => r.seq < mine.seq) || gone then none
  else some ⟨{ m with table := m.table.storeRoster m.peer r }, []⟩

/-- The later of two rosters. -/
def laterOf (mine offered : Option Roster) : Option Roster :=
  match mine, offered with
  | some a, some b => if b.rank < a.rank then some a else some b
  | some a, none => some a
  | none, offered => offered

/-- What the settlement's holder still has to admit; `presented` is the certificate on a machine's row. -/
def admitParties (nowMs : UInt64) (presented : Id → Option (List UInt8)) :
    List Id → Roster → Option (List Change × Roster)
  | [], r => some ([], r)
  | party :: rest, r =>
      if standing scheme (some r) (some (scheme.public key)) party (presented party) nowMs = .trusted then
        admitParties nowMs presented rest r
      else do
        let c := .admitMember nowMs ⟨party, .device, none⟩
        let r ← verified scheme key (r.change scheme key c)
        let (changes, r) ← admitParties nowMs presented rest r
        some (c :: changes, r)

/-- `verified_settlement_roster`: under the root that it claims, or nothing. -/
def settlementRoster (offered : List UInt8) : Option (Option Roster) :=
  if offered = [] then some none
  else do
    let root ← claimedRoot offered
    let r ← (verifyRoster scheme offered root).toOption
    some (some r)

/-- What a settlement decides: where this side's root goes, and the roster both go on under. -/
def Machine.plan (m : Machine) (remote : Id) (dialed : Bool) (offered : List UInt8) :
    Option (Option Id × Option Roster) := do
  let theirs ← settlementRoster scheme offered
  let mine := m.anchor.bind (m.table.newestIn scheme ·)
  match settle mine m.id theirs remote dialed with
  | .clash => none
  | .adopt => some (theirs.map (·.root), theirs)
  | .keep => some (m.anchor, laterOf mine (theirs.filter fun r => some r.root = m.anchor))

/-- The machine with a settlement ready. -/
def Machine.settling (m : Machine) (pairing : Id) (anchor : Option Id) (desired : Option Roster)
    (offered : List UInt8) : Machine :=
  let mine := m.anchor.bind (m.table.newestIn scheme ·)
  { m with settlement := some ⟨pairing, m.anchor, mine.map (·.bytes), anchor, desired, offered, false⟩ }

/-- `prepare_pair_settlement`. -/
def Machine.preparePair (m : Machine) (pairing remote : Id) (dialed : Bool) (offered : List UInt8)
    (presented : Id → Option (List UInt8)) (nowMs : UInt64) : Option Done :=
  if m.settlement.isSome then none
  else do
    let (anchor, desired) ← m.plan scheme remote dialed offered
    if m.holdsRoot scheme key && anchor = some (scheme.public key) then do
      let base ← m.orGenesis scheme key nowMs desired
      let (changes, r) ← admitParties scheme key nowMs presented [remote, m.id] base
      some ⟨m.settling scheme pairing anchor (some r) offered,
        if changes = [] ∧ desired.isSome then [] else [⟨base, changes, r, m.table, offered⟩]⟩
    else if m.rootKey.any fun own =>
        anchor ≠ some own && (m.table.newestIn scheme own).any fun r => !r.lone m.id then none
    else some ⟨m.settling scheme pairing anchor desired offered, []⟩

/-- The desired roster stored; a machine that goes to another root drops its own first. -/
def Machine.desiredTable (m : Machine) (plan : Settlement) : Table :=
  match plan.desired with
  | none => m.table
  | some r =>
      if plan.beforeAnchor = plan.desiredAnchor then m.table.storeRoster m.peer r
      else (m.table.dropRosters m.peer ((m.table.rosters.map (·.1)).filter Table.isVersion)).storeRoster m.peer r

/-- The input archived. -/
def Machine.archivedTable (m : Machine) (plan : Settlement) (t : Table) : Table :=
  if plan.input = [] then t else Register.put t m.peer (.archive plan.pairing m.id) plan.input

/-- The table and the anchor that a settlement asks for. -/
def Machine.settleTable (m : Machine) (plan : Settlement) : Option Machine :=
  let old : Option (List UInt8) := (plan.beforeAnchor.bind (m.table.newestIn scheme ·)).map (·.bytes)
  let next : Option (List UInt8) := (plan.desiredAnchor.bind (m.table.newestIn scheme ·)).map (·.bytes)
  let desired : Option (List UInt8) := plan.desired.map (·.bytes)
  if m.anchor ≠ plan.beforeAnchor ∧ m.anchor ≠ plan.desiredAnchor then none
  else if old ≠ plan.beforeRoster ∧ next ≠ desired then none
  else if next ≠ none ∧ next ≠ desired ∧ plan.beforeAnchor ≠ plan.desiredAnchor then none
  else
    some { m with
      table := m.archivedTable plan (m.desiredTable plan)
      anchor := plan.desiredAnchor <|> m.anchor
      settlement := some { plan with covered := true } }

/-- `apply_pair_settlement`: the old root's key is given up last, and only if nobody else needs it. -/
def Machine.applyPair (m : Machine) : Option Done := do
  let plan ← m.settlement
  let m ← (if plan.covered then some m else m.settleTable scheme plan)
  if m.rootKey = plan.desiredAnchor then some ⟨{ m with settlement := none }, []⟩
  else if m.rootKey.any fun own => (m.table.newestIn scheme own).any fun r => !r.lone m.id then some ⟨m, []⟩
  else some ⟨{ m with rootKey := none, settlement := none }, []⟩

/-- The archives of pairings that are over are dropped. -/
def Machine.collectPairs (m : Machine) (pairings : List Id) : Option Done :=
  some ⟨{ m with table := m.table.dropRosters m.peer (pairings.map fun p => .archive p m.id) }, []⟩

end Operations

/-- What happens in the network. A table is sent as it stands and merged at any later time, or never. -/
inductive Event (ι : Type) where
  | certifySelf (i : ι) (nowMs : UInt64)
  | approveHere (i : ι) (row : PendingRow) (nowMs : UInt64)
  | revokeHere (i : ι) (id : Id) (nowMs : UInt64)
  | trustTick (i : ι) (nowMs : UInt64)
  | takeVouch (i : ι) (remote : Id) (bytes : List UInt8) (gone : Bool) (nowMs : UInt64)
  | preparePair (i : ι) (pairing remote : Id) (dialed : Bool) (offered : List UInt8)
      (presented : Id → Option (List UInt8)) (nowMs : UInt64)
  | applyPair (i : ι)
  | collectPairs (i : ι) (pairings : List Id)
  | send (i : ι)
  | merge (i : ι) (n : Nat)

structure World (ι : Type) where
  machine : ι → Machine
  /-- The tables sent, the latest first. -/
  sent : List Table
  /-- What was signed with the root, the latest first. -/
  signed : List Signing

section Steps

variable {ι : Type} [DecidableEq ι] (scheme : Scheme) (key : scheme.SecretKey)

/-- What an operation makes of a machine; one that fails changes nothing. -/
def World.after (w : World ι) (i : ι) (done : Option Done) : World ι :=
  match done with
  | none => w
  | some d => { w with machine := Function.update w.machine i d.machine, signed := d.signed ++ w.signed }

/-- What an event's operation leaves, where it is one of a machine. -/
def Event.done (w : World ι) : Event ι → Option (ι × Option Done)
  | .certifySelf i nowMs => some (i, (w.machine i).certifySelf scheme key nowMs)
  | .approveHere i row nowMs => some (i, (w.machine i).approveHere scheme key row nowMs)
  | .revokeHere i id nowMs => some (i, (w.machine i).revokeHere scheme key id nowMs)
  | .trustTick i nowMs => some (i, (w.machine i).trustTick scheme key nowMs)
  | .takeVouch i remote bytes gone nowMs => some (i, (w.machine i).takeVouch scheme remote bytes gone nowMs)
  | .preparePair i pairing remote dialed offered presented nowMs =>
      some (i, (w.machine i).preparePair scheme key pairing remote dialed offered presented nowMs)
  | .applyPair i => some (i, (w.machine i).applyPair scheme)
  | .collectPairs i pairings => some (i, (w.machine i).collectPairs pairings)
  | .merge i n =>
      some (i, w.sent.reverse[n]?.map fun t => ⟨{ w.machine i with table := (w.machine i).table.merge t }, []⟩)
  | .send _ => none

def step (w : World ι) (e : Event ι) : World ι :=
  match e with
  | .send i => { w with sent := (w.machine i).table :: w.sent }
  | e =>
      match e.done scheme key w with
      | some (i, done) => w.after i done
      | none => w

end Steps

end Khor.Net
