/-
Module: Khor.Net.Trust
Purpose: Certificates and the roster, signed by the root key. A record is a magic, the length of its body,
  the body and a signature over all of it; a roster carries the signed certificates and the revoked ids.
  Each step of a roster's history signs the next one from what the last one says.
Trusted boundary: a signature verifies exactly when the key made it
Main exports: Scheme, Cert, Roster, verifyCert, verifyRoster
-/
import Khor.Lib.Postcard

namespace Khor.Net

/-- A device id, a satellite's fingerprint, or a root public key. -/
abbrev Id := Vector UInt8 32

/-- What a certificate's subject is. -/
inductive Kind where
  | device
  | satellite

/-- One statement: `subject` is mine. -/
structure Cert where
  root : Id
  subject : Id
  kind : Kind
  sponsor : Option Id
  issuedMs : UInt64
  seq : UInt64
  expiresMs : Option UInt64

/-- Whether it still counts at `nowMs`. -/
def Cert.liveAt (c : Cert) (nowMs : UInt64) : Bool :=
  match c.expiresMs with
  | none => true
  | some stop => nowMs < stop

structure RosterBody where
  root : Id
  seq : UInt64
  issuedMs : UInt64
  certs : List (List UInt8)
  revoked : List Id

/-- A roster whose signature and every certificate inside it verified. `signed` are the signed
certificates, in the order of `certs`. -/
structure Roster where
  root : Id
  seq : UInt64
  issuedMs : UInt64
  certs : List Cert
  signed : List (List UInt8)
  revoked : List Id
  bytes : List UInt8

/-- Why a record was refused. -/
inductive TrustError where
  | garbled
  | badSignature
  | otherRoot
  | badCertInside

/-- One member to certify: who, what it is, and who speaks for it. -/
structure Member where
  subject : Id
  kind : Kind
  sponsor : Option Id

/-! ### The bytes -/

def CERT_MAGIC : List UInt8 := [0x6b, 0x68, 0x63, 0x31]

def ROSTER_MAGIC : List UInt8 := [0x6b, 0x68, 0x72, 0x31]

def SIG : Nat := 64

def HEAD : Nat := 8

/-- The signatures of the root keys. -/
structure Scheme where
  SecretKey : Type
  «public» : SecretKey → Id
  sign : SecretKey → List UInt8 → Vector UInt8 SIG
  verify : Id → List UInt8 → Vector UInt8 SIG → Bool

/-- Verification succeeds exactly on what the key signed. -/
def Scheme.Unforgeable (scheme : Scheme) : Prop :=
  ∀ key signed sig, scheme.verify (scheme.public key) signed sig = true ↔ sig = scheme.sign key signed

def u64 : Coding UInt64 := (varint 64 10).map UInt64.toNat fun n => some (UInt64.ofNat n)

/-- A variant is coded by its index. -/
def kind : Coding Kind :=
  (varint 32 5).map (fun | .device => 0 | .satellite => 1)
    (fun | 0 => some .device | 1 => some .satellite | _ => none)

def cert : Coding Cert :=
  ((Coding.array 32).pair ((Coding.array 32).pair (kind.pair ((Coding.array 32).option.pair
    (u64.pair (u64.pair u64.option)))))).map
    (fun c => (c.root, c.subject, c.kind, c.sponsor, c.issuedMs, c.seq, c.expiresMs))
    (fun (root, subject, kind, sponsor, issuedMs, seq, expiresMs) =>
      some { root, subject, kind, sponsor, issuedMs, seq, expiresMs })

def rosterBody : Coding RosterBody :=
  ((Coding.array 32).pair (u64.pair (u64.pair (Coding.byte.list.list.pair (Coding.array 32).list)))).map
    (fun b => (b.root, b.seq, b.issuedMs, b.certs, b.revoked))
    (fun (root, seq, issuedMs, certs, revoked) => some { root, seq, issuedMs, certs, revoked })

/-- `(n as u32).to_be_bytes()`. -/
def be32 (n : Nat) : List UInt8 :=
  [UInt8.ofNat (n / 16777216), UInt8.ofNat (n / 65536), UInt8.ofNat (n / 256), UInt8.ofNat n]

/-- `u32::from_be_bytes`. -/
def fromBe32 (bytes : List UInt8) : Nat := bytes.foldl (fun n b => n * 256 + b.toNat) 0

/-- The body and the signed prefix, unverified. Every byte must be accounted for. -/
def frame (magic bytes : List UInt8) :
    Except TrustError (List UInt8 × List UInt8 × Vector UInt8 SIG) :=
  if bytes.length < HEAD + SIG ∨ bytes.take 4 ≠ magic then .error .garbled
  else
    let len := fromBe32 ((bytes.drop 4).take 4)
    if h : bytes.length = HEAD + len + SIG then
      .ok ((bytes.drop HEAD).take len, bytes.take (HEAD + len),
        ⟨(bytes.drop (HEAD + len)).toArray, by simp [h]⟩)
    else .error .garbled

/-- A body that must be consumed exactly. -/
def decode {α : Type} (c : Coding α) (body : List UInt8) : Except TrustError α :=
  match c.takeAll body with
  | some a => .ok a
  | none => .error .garbled

section Records

variable (scheme : Scheme)

def «seal» (magic body : List UInt8) (key : scheme.SecretKey) : List UInt8 :=
  let out := magic ++ be32 body.length ++ body
  out ++ (scheme.sign key out).toList

def checkSig (root : Id) (signed : List UInt8) (sig : Vector UInt8 SIG) : Except TrustError Unit :=
  if scheme.verify root signed sig then .ok () else .error .badSignature

/-- Signs one certificate. -/
def signCert (key : scheme.SecretKey) (c : Cert) : List UInt8 :=
  «seal» scheme CERT_MAGIC (cert.put c) key

/-- A certificate, verified with nothing but the root's public key. -/
def verifyCert (bytes : List UInt8) (root : Id) : Except TrustError Cert :=
  match frame CERT_MAGIC bytes with
  | .error e => .error e
  | .ok (body, signed, sig) =>
      match decode cert body with
      | .error e => .error e
      | .ok c =>
          if c.root ≠ root then .error .otherRoot
          else
            match checkSig scheme root signed sig with
            | .error e => .error e
            | .ok () => .ok c

/-- The certificates inside a roster: each one verifies, and none claims a later `seq`. -/
def verifyCerts (root : Id) (seq : UInt64) : List (List UInt8) → Except TrustError (List Cert)
  | [] => .ok []
  | bytes :: rest =>
      match verifyCert scheme bytes root with
      | .error _ => .error .badCertInside
      | .ok c =>
          if seq < c.seq then .error .badCertInside
          else
            match verifyCerts root seq rest with
            | .error e => .error e
            | .ok certs => .ok (c :: certs)

/-- A roster, verified with nothing but the root's public key: its own signature and every certificate
inside it. -/
def verifyRoster (bytes : List UInt8) (root : Id) : Except TrustError Roster :=
  match frame ROSTER_MAGIC bytes with
  | .error e => .error e
  | .ok (body, signed, sig) =>
      match decode rosterBody body with
      | .error e => .error e
      | .ok b =>
          if b.root ≠ root then .error .otherRoot
          else
            match checkSig scheme root signed sig with
            | .error e => .error e
            | .ok () =>
                match verifyCerts scheme root b.seq b.certs with
                | .error e => .error e
                | .ok certs =>
                    .ok
                      { root := b.root, seq := b.seq, issuedMs := b.issuedMs, certs := certs,
                        signed := b.certs, revoked := b.revoked, bytes := bytes }

def signRoster (key : scheme.SecretKey) (seq issuedMs : UInt64) (certs : List (List UInt8))
    (revoked : List Id) : List UInt8 :=
  «seal» scheme ROSTER_MAGIC
    (rosterBody.put
      { root := scheme.public key, seq := seq, issuedMs := issuedMs, certs := certs,
        revoked := revoked }) key

/-- The statement `cert_for` signs. -/
def certOf (key : scheme.SecretKey) (m : Member) (seq nowMs : UInt64) : Cert :=
  { root := scheme.public key, subject := m.subject, kind := m.kind, sponsor := m.sponsor,
    issuedMs := nowMs, seq := seq, expiresMs := none }

def certFor (key : scheme.SecretKey) (m : Member) (seq nowMs : UInt64) : List UInt8 :=
  signCert scheme key (certOf scheme key m seq nowMs)

/-- The first roster of a root: `seq` 1, certifying `members`. -/
def genesis (key : scheme.SecretKey) (nowMs : UInt64) (members : List Member) : List UInt8 :=
  signRoster scheme key 1 nowMs (members.map fun m => certFor scheme key m 1 nowMs) []

namespace Roster

/-- The certificate this roster holds for `id`, revoked or not. -/
def cert (r : Roster) (id : Id) : Option Cert := r.certs.find? fun c => c.subject = id

def isRevoked (r : Roster) (id : Id) : Bool := r.revoked.contains id

/-- The trust question: listed, not revoked, not expired. -/
def admits (r : Roster) (id : Id) (nowMs : UInt64) : Bool :=
  !r.isRevoked id && (r.cert id).any (·.liveAt nowMs)

/-- The numbers are `u64`: the one after the last is 0. -/
def next (r : Roster) (key : scheme.SecretKey) (nowMs : UInt64) (certs : List (List UInt8))
    (revoked : List Id) : List UInt8 :=
  signRoster scheme key (r.seq + 1) nowMs certs revoked

/-- The signed certificates of everyone but `id`. -/
def without (r : Roster) (id : Id) : List (List UInt8) :=
  ((r.certs.zip r.signed).filter fun p => p.1.subject ≠ id).map (·.2)

/-- `Roster::admit`: the next roster with `m` certified, and off the revoked list. -/
def admitMember (r : Roster) (key : scheme.SecretKey) (nowMs : UInt64) (m : Member) : List UInt8 :=
  r.next scheme key nowMs (r.without m.subject ++ [certFor scheme key m (r.seq + 1) nowMs])
    (r.revoked.filter (· ≠ m.subject))

/-- The next roster with `id` revoked: its certificate dropped and its id listed. -/
def revoke (r : Roster) (key : scheme.SecretKey) (nowMs : UInt64) (id : Id) : List UInt8 :=
  r.next scheme key nowMs (r.without id)
    (if r.revoked.contains id then r.revoked else r.revoked ++ [id])

/-- The same list, signed again with another date. -/
def refresh (r : Roster) (key : scheme.SecretKey) (nowMs : UInt64) : List UInt8 :=
  r.next scheme key nowMs r.signed r.revoked

end Roster

/-- A step after the first. -/
inductive Change where
  | admitMember (nowMs : UInt64) (m : Member)
  | revoke (nowMs : UInt64) (id : Id)
  | refresh (nowMs : UInt64)

/-- What a step signs over the roster before it. -/
def Roster.change (r : Roster) (key : scheme.SecretKey) : Change → List UInt8
  | .admitMember nowMs m => r.admitMember scheme key nowMs m
  | .revoke nowMs id => r.revoke scheme key nowMs id
  | .refresh nowMs => r.refresh scheme key nowMs

end Records

/-! ### What is signed is read back -/

theorem u64_reads (n : UInt64) : u64.Reads n :=
  Coding.map_reads (@varint_reads 64 9 n.toNat (by decide) n.toNat_lt) (by simp)

theorem kind_reads (k : Kind) : kind.Reads k := by
  cases k <;> exact Coding.map_reads (@varint_reads 32 4 _ (by decide) (by decide)) rfl

theorem cert_reads (c : Cert) : cert.Reads c := by
  refine Coding.map_reads ?_ rfl
  exact Coding.pair_reads (Coding.array_reads _) (Coding.pair_reads (Coding.array_reads _)
    (Coding.pair_reads (kind_reads _) (Coding.pair_reads
      (Coding.option_reads fun _ _ => Coding.array_reads _) (Coding.pair_reads (u64_reads _)
        (Coding.pair_reads (u64_reads _) (Coding.option_reads fun _ _ => u64_reads _))))))

theorem rosterBody_put (b : RosterBody) : rosterBody.put b =
    b.root.toList ++ (u64.put b.seq ++ (u64.put b.issuedMs ++ (Coding.byte.list.list.put b.certs ++
      (Coding.array 32).list.put b.revoked))) := rfl

/-- A roster's body of a size that the frame can carry is read back. -/
theorem rosterBody_reads {b : RosterBody} (short : (rosterBody.put b).length < 2 ^ 32) :
    rosterBody.Reads b := by
  have whole := congrArg List.length (rosterBody_put b)
  simp only [List.length_append] at whole
  have certs : (Coding.byte.list.list.put b.certs).length < 2 ^ 32 := by omega
  have revoked : ((Coding.array 32).list.put b.revoked).length < 2 ^ 32 := by omega
  have few : 1 * b.certs.length ≤ (Coding.byte.list.list.put b.certs).length :=
    Coding.length_le_list_put fun bytes _ => Coding.one_le_list_put Coding.byte bytes
  have fewRevoked : 1 * b.revoked.length ≤ ((Coding.array 32).list.put b.revoked).length :=
    Coding.length_le_list_put fun id _ => by simp [Coding.array]
  have bounded : b.certs.length < 2 ^ 64 := by omega
  have revokedBounded : b.revoked.length < 2 ^ 64 := by omega
  have each : ∀ bytes ∈ b.certs, Coding.byte.list.Reads bytes := by
    intro bytes mem
    have inside := Coding.length_put_le_list_put (c := Coding.byte.list) mem
    have within : 1 * bytes.length ≤ (Coding.byte.list.put bytes).length :=
      Coding.length_le_list_put fun _ _ => Nat.le_refl 1
    have bounded : bytes.length < 2 ^ 64 := by omega
    exact Coding.list_reads bounded fun _ _ => Coding.byte_reads _
  refine Coding.map_reads ?_ rfl
  exact Coding.pair_reads (Coding.array_reads _) (Coding.pair_reads (u64_reads _)
    (Coding.pair_reads (u64_reads _) (Coding.pair_reads (Coding.list_reads bounded each)
      (Coding.list_reads revokedBounded fun _ _ => Coding.array_reads _))))

theorem fromBe32_be32 (n : Nat) : fromBe32 (be32 n) = n % 2 ^ 32 := by
  simp only [be32, fromBe32, List.foldl_cons, List.foldl_nil, UInt8.toNat_ofNat']
  omega

section Records

variable {scheme : Scheme}

theorem seal_length (magic body : List UInt8) (key : scheme.SecretKey) :
    («seal» scheme magic body key).length = magic.length + 4 + body.length + SIG := by
  simp [«seal», be32]
  omega

/-- The frame of a sealed body, whose length it has room for or has not. -/
theorem frame_seal {magic : List UInt8} (four : magic.length = 4) (body : List UInt8) (key : scheme.SecretKey) :
    frame magic («seal» scheme magic body key) =
      if body.length < 2 ^ 32 then
        .ok (body, magic ++ be32 body.length ++ body, scheme.sign key (magic ++ be32 body.length ++ body))
      else .error .garbled := by
  have length := seal_length magic body key
  have front : («seal» scheme magic body key).take 4 = magic := by
    simp only [«seal», List.append_assoc]
    exact List.take_left' four
  have size : ((«seal» scheme magic body key).drop 4).take 4 = be32 body.length := by
    simp only [«seal», List.append_assoc]
    rw [List.drop_left' four]
    exact List.take_left' rfl
  have enough : ¬ ((«seal» scheme magic body key).length < HEAD + SIG ∨
      («seal» scheme magic body key).take 4 ≠ magic) := by
    rw [front, length, four]
    simp [HEAD]
  unfold frame
  rw [if_neg enough]
  simp only [size, fromBe32_be32]
  by_cases short : body.length < 2 ^ 32
  · rw [if_pos short]
    have whole : body.length % 2 ^ 32 = body.length := Nat.mod_eq_of_lt short
    have ends : («seal» scheme magic body key).length = HEAD + body.length % 2 ^ 32 + SIG := by
      rw [length, whole, four, HEAD]
    rw [dif_pos ends]
    have head : (magic ++ be32 body.length).length = HEAD := by simp [four, be32, HEAD]
    have signed : (magic ++ be32 body.length ++ body).length = HEAD + body.length := by
      rw [List.length_append, head]
    have split : («seal» scheme magic body key) = magic ++ be32 body.length ++ body ++
        (scheme.sign key (magic ++ be32 body.length ++ body)).toList := rfl
    have body' : ((«seal» scheme magic body key).drop HEAD).take body.length = body := by
      rw [split, List.append_assoc, List.drop_left' head]
      exact List.take_left' rfl
    have prefix' : («seal» scheme magic body key).take (HEAD + body.length) =
        magic ++ be32 body.length ++ body := List.take_left' signed
    have sig : («seal» scheme magic body key).drop (HEAD + body.length) =
        (scheme.sign key (magic ++ be32 body.length ++ body)).toList := List.drop_left' signed
    simp only [whole, body', prefix', sig, Except.ok.injEq, Prod.mk.injEq, true_and]
    ext i
    simp
  · rw [if_neg short]
    have wrapped : body.length % 2 ^ 32 < 2 ^ 32 := Nat.mod_lt _ (by decide)
    have ends : ¬ («seal» scheme magic body key).length = HEAD + body.length % 2 ^ 32 + SIG := by
      rw [length, four, HEAD]
      omega
    rw [dif_neg ends]

/-- What `check_sig` asks of a record the key sealed. -/
theorem checkSig_sign (unforgeable : scheme.Unforgeable) (key : scheme.SecretKey) (signed : List UInt8) :
    checkSig scheme (scheme.public key) signed (scheme.sign key signed) = .ok () :=
  if_pos ((unforgeable key signed _).mpr rfl)

/-- A certificate that claims the key's root verifies under it. -/
theorem verifyCert_signCert (unforgeable : scheme.Unforgeable) {key : scheme.SecretKey} {c : Cert}
    (rooted : c.root = scheme.public key) (short : (cert.put c).length < 2 ^ 32) :
    verifyCert scheme (signCert scheme key c) (scheme.public key) = .ok c := by
  rw [verifyCert, signCert, frame_seal rfl, if_pos short]
  simp only [decode, Coding.takeAll_put (cert_reads c), rooted, ne_eq, not_true_eq_false, if_false,
    checkSig_sign unforgeable]

/-- No record is accepted both as a certificate and as a roster: the magics differ. -/
theorem not_both (bytes : List UInt8) (root root' : Id) (c : Cert) (r : Roster) :
    ¬ (verifyCert scheme bytes root = .ok c ∧ verifyRoster scheme bytes root' = .ok r) := by
  rintro ⟨isCert, isRoster⟩
  have magic : ∀ {m framed}, frame m bytes = .ok framed → bytes.take 4 = m := by
    intro m framed h
    unfold frame at h
    split at h
    · cases h
    · rename_i enough
      exact not_not.mp (not_or.mp enough).2
  unfold verifyCert at isCert
  unfold verifyRoster at isRoster
  cases hcert : frame CERT_MAGIC bytes with
  | error e =>
      rw [hcert] at isCert
      cases isCert
  | ok framed =>
      cases hroster : frame ROSTER_MAGIC bytes with
      | error e =>
          rw [hroster] at isRoster
          cases isRoster
      | ok framed' =>
          have same := (magic hcert).symm.trans (magic hroster)
          exact absurd same (by decide)

end Records

end Khor.Net
