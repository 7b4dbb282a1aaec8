/-
Module: Khor.Node.TreeFilled
Purpose: A copy of a directory that succeeds: the part is filled in the order of the manifest, each file with what its
  reads gave, and takes a free name. Where equal scans mean equal contents in between, the reads gave the source's bytes.
Trusted boundary: as for TreeCopy
Main exports: Copied, permit_ok, Copy, tree_copied, receive_stays
-/
import Khor.Node.TreeCopied

namespace Khor.Tree

variable {w : World}

/-! ### Calls in the part -/

def Thing.put (thing : Thing) (path : List Name) (item : Item) : Thing := fun p => if p = path then some item else thing p

theorem Thing.put_put (thing : Thing) (path : List Name) (a b : Item) : (thing.put path a).put path b = thing.put path b := by
  funext p
  simp only [Thing.put]
  split <;> rfl

variable {part dest : Name} {s s' : State} {thing : Thing} {path : List Name} {lo hi : Nat}

theorem tick_part (stands : s.dir.names part = some thing) : (tick w s).2.dir.names part = some thing :=
  (Grown.tick s : Grown w nobody s _).kept part thing id stands

theorem makeIn_ok {item : Moment → Item} (ran : makeIn w part path item s = (.ok (), s'))
    (stands : s.dir.names part = some thing) : thing path.dropLast = some .dir ∧ thing path = none ∧
      s'.dir.names part = some (thing.put path (item (w s.now))) := by
  obtain ⟨m, s₁, called, is⟩ := Work.bind_ok.mp ran
  obtain ⟨rfl, rfl⟩ := call_ok called
  have stands' := tick_part (w := w) stands
  rw [stands'] at is
  dsimp only at is
  split at is
  · rename_i free
    cases is
    exact ⟨free.1, free.2, by rw [names_set _ (there_of_names stands'), if_pos rfl]; rfl⟩
  · cases is

theorem changeIn_ok {change : Bytes → Nat → Item} (ran : changeIn w part path change s = (.ok (), s'))
    (stands : s.dir.names part = some thing) : ∃ bytes mode, thing path = some (.file bytes mode) ∧
      s'.dir.names part = some (thing.put path (change bytes mode)) := by
  obtain ⟨m, s₁, called, is⟩ := Work.bind_ok.mp ran
  obtain ⟨rfl, rfl⟩ := call_ok called
  have stands' := tick_part (w := w) stands
  rw [stands'] at is
  dsimp only at is
  cases found : thing path with
  | none =>
      rw [found] at is
      cases is
  | some item =>
      rw [found] at is
      cases item with
      | dir => cases is
      | file bytes mode =>
          cases is
          exact ⟨bytes, mode, rfl, by rw [names_set _ (there_of_names stands'), if_pos rfl]; rfl⟩

/-! ### A file -/

/-- From when it is opened on, a file holds these bytes all the time. -/
def Settled (w : World) (lo hi : Nat) (path : List Name) (bytes : Bytes) : Prop :=
  ∀ u v file, lo ≤ u → u ≤ v → v < hi → (w u).source.file path = some file → (w v).source.content file = bytes

theorem Settled.mono {lo hi lo' hi' : Nat} {path : List Name} {bytes : Bytes} (settled : Settled w lo hi path bytes)
    (after : lo ≤ lo') (before : hi' ≤ hi) : Settled w lo' hi' path bytes :=
  fun u v file from_ later until_ => settled u v file (Nat.le_trans after from_) later (Nat.lt_of_lt_of_le until_ before)

theorem readAt_ok {file moved : Nat} {piece : Bytes} (ran : readAt w file moved s = (.ok piece, s')) :
    piece = (((w s.now).source.content file).drop moved).take (min ((w s.now).took + 1) (64 * 1024)) ∧
      s' = (tick w s).2 := by
  obtain ⟨m, s₁, called, is⟩ := Work.bind_ok.mp ran
  obtain ⟨rfl, rfl⟩ := call_ok called
  cases is
  exact ⟨rfl, rfl⟩

/-- A piece that was read follows what was read before it. -/
theorem take_piece {bytes out piece : Bytes} {n : Nat} (so : out = bytes.take out.length)
    (is : piece = (bytes.drop out.length).take n) : out ++ piece = bytes.take (out ++ piece).length := by
  have length : piece.length ≤ n := by
    rw [is]
    exact List.length_take_le _ _
  have exact_ : piece = (bytes.drop out.length).take piece.length := by
    rcases Nat.le_total n (bytes.drop out.length).length with short | long
    · have : piece.length = n := by rw [is, List.length_take, Nat.min_eq_left short]
      rw [this, ← is]
    · have : piece = bytes.drop out.length := by rw [is, List.take_of_length_le long]
      rw [this, List.take_length]
  rw [List.length_append, List.take_add, ← so, ← exact_]

/-- Where a read of at least one byte gives none, everything was read. -/
theorem take_all {bytes out : Bytes} {n : Nat} (so : out = bytes.take out.length) (some : 0 < n)
    (is : [] = (bytes.drop out.length).take n) : out = bytes := by
  have none : (bytes.drop out.length).length = 0 := by
    have := congrArg List.length is
    rw [List.length_take, List.length_nil] at this
    omega
  rw [List.length_drop] at none
  rw [so]
  exact List.take_of_length_le (by omega)

/-- **The loop over a file**: it holds what the reads gave, which is the file's bytes if those stay as they are. -/
theorem pump_ok {part : Name} {path : List Name} {size file : Nat} : ∀ {fuel : Nat} {s s' : State} {thing : Thing}
    {out : Bytes} {mode n : Nat}, s.dir.names part = some thing → thing path = some (.file out mode) →
    pump w part path size file fuel out.length s = (.ok n, s') →
    ∃ bytes, s'.dir.names part = some (thing.put path (.file bytes mode)) ∧ n = bytes.length ∧
      ∀ whole, (∀ v, s.now ≤ v → v < s'.now → (w v).source.content file = whole) →
        out = whole.take out.length → bytes = whole
  | 0, s, s', thing, out, mode, n, _, _, ran => by cases ran
  | fuel + 1, s, s', thing, out, mode, n, stands, holds, ran => by
      rw [pump] at ran
      obtain ⟨stop, s₁, asked, ran⟩ := Work.bind_ok.mp ran
      cases asked
      split at ran
      · cases ran
      obtain ⟨piece, s₂, read, rest⟩ := Work.bind_ok.mp ran
      obtain ⟨given, rfl⟩ := readAt_ok read
      have stands' := tick_part (w := w) (tick_part (w := w) stands)
      have took : 0 < min ((w (s.now + 1)).took + 1) (64 * 1024) := by omega
      split at rest
      · rename_i end_
        cases rest
        refine ⟨out, ?_, rfl, fun whole still so => ?_⟩
        · have same : thing.put path (.file out mode) = thing := by
            funext p
            simp only [Thing.put]
            split
            · rename_i is
              rw [is, holds]
            · rfl
          rw [same]
          exact stands'
        · rw [end_, still (s.now + 1) (Nat.le_succ _) (Nat.lt_succ_self _)] at given
          exact take_all so took given
      · split at rest
        · cases rest
        obtain ⟨_, s₃, changed, goes⟩ := Work.bind_ok.mp rest
        obtain ⟨bytes, mode', found, stands''⟩ := changeIn_ok changed stands'
        rw [holds] at found
        cases found
        have later : s.now + 2 ≤ s₃.now := ((changeIn_moves path _).of_run changed : Owned w part _ _).grown.later
        have ends : s₃.now ≤ s'.now := ((pump_moves path size file fuel _).of_run goes : Owned w part _ _).grown.later
        rw [← List.length_append] at goes
        have here : thing.put path (.file (out ++ piece) mode) path = some (.file (out ++ piece) mode) := if_pos rfl
        obtain ⟨bytes, stands, is, whole⟩ := pump_ok stands'' here goes
        rw [Thing.put_put] at stands
        refine ⟨bytes, stands, is, fun all still so => ?_⟩
        refine whole all (fun v from_ until_ => still v (by omega) until_) ?_
        have given : piece = (((w (s.now + 1)).source.content file).drop out.length).take _ := given
        rw [still (s.now + 1) (Nat.le_succ _) (by omega)] at given
        exact take_piece so given

theorem copyFile_ok {size : Nat} (stands : s.dir.names part = some thing)
    (ran : copyFile w part path size s = (.ok (), s')) :
    thing path = none ∧ ∃ bytes mode, s'.dir.names part = some (thing.put path (.file bytes mode)) ∧
      bytes.length = size ∧ ∀ whole, Settled w s.now s'.now path whole → bytes = whole := by
  obtain ⟨file, s₁, asked, ran⟩ := Work.bind_ok.mp ran
  obtain ⟨_, s₂, made, rest⟩ := Work.bind_ok.mp ran
  obtain ⟨moved, s₃, pumped, last⟩ := Work.bind_ok.mp rest
  obtain ⟨opened, rfl⟩ := ask_ok asked
  obtain ⟨-, free, stands'⟩ := makeIn_ok made (tick_part stands)
  have later : s.now + 1 ≤ s₂.now := ((makeIn_moves path _).of_run made : Owned w part _ _).grown.later
  have here : thing.put path (.file [] (w (tick w s).2.now).fresh) path = some (.file [] (w (tick w s).2.now).fresh) :=
    if_pos rfl
  obtain ⟨bytes, stands'', is, whole⟩ := @pump_ok _ _ _ _ _ _ _ _ _ [] _ _ stands' here pumped
  rw [Thing.put_put] at stands''
  split at last
  · cases last
  rename_i same
  cases last
  refine ⟨free, bytes, _, stands'', is.symm.trans (Decidable.not_not.mp same), fun all settled => ?_⟩
  exact whole all (fun v from_ until_ => settled s.now v file (Nat.le_refl _) (by omega) until_ opened) rfl

/-! ### All of the manifest -/

/-- What the part holds once these entries were copied. -/
structure Copied (w : World) (lo hi : Nat) (es : List Entry) (thing : Thing) : Prop where
  top : thing [] = some .dir
  dirs : ∀ e ∈ es, e.dir = true → thing (parts e.path) = some .dir
  files : ∀ e ∈ es, e.dir = false → ∃ bytes mode, thing (parts e.path) = some (.file bytes mode) ∧
    bytes.length = e.size ∧ ∀ whole, Settled w lo hi (parts e.path) whole → bytes = whole
  within : ∀ path item, thing path = some item → path = [] ∨ ∃ e ∈ es, parts e.path = path

theorem Copied.start (lo : Nat) : Copied w lo lo [] empty where
  top := rfl
  dirs := by simp
  files := by simp
  within path item is := by
    unfold empty at is
    split at is
    · exact .inl ‹_›
    · cases is

theorem Copied.later {hi' : Nat} {es : List Entry} (copied : Copied w lo hi es thing) (more : hi ≤ hi') :
    Copied w lo hi' es thing where
  top := copied.top
  dirs := copied.dirs
  files e there isFile := by
    obtain ⟨bytes, mode, holds, size, whole⟩ := copied.files e there isFile
    exact ⟨bytes, mode, holds, size, fun all settled => whole all (settled.mono (Nat.le_refl _) more)⟩
  within := copied.within

/-- One entry more, where nothing stood. -/
theorem Copied.add {es : List Entry} {e : Entry} {item : Item} (copied : Copied w lo hi es thing)
    (free : thing (parts e.path) = none) (isDir : e.dir = true → item = .dir)
    (isFile : e.dir = false → ∃ bytes mode, item = .file bytes mode ∧ bytes.length = e.size ∧
      ∀ whole, Settled w lo hi (parts e.path) whole → bytes = whole) :
    Copied w lo hi (es ++ [e]) (thing.put (parts e.path) item) where
  top := by
    have other : [] ≠ parts e.path := fun is => List.splitOn_ne_nil _ _ is.symm
    rw [Thing.put, if_neg other, copied.top]
  dirs d there dir := by
    unfold Thing.put
    rcases List.mem_append.mp there with there | is
    · have := copied.dirs d there dir
      rw [if_neg (fun same => by rw [same, free] at this; cases this), this]
    · obtain rfl := List.mem_singleton.mp is
      rw [if_pos rfl, isDir dir]
  files d there file := by
    unfold Thing.put
    rcases List.mem_append.mp there with there | is
    · obtain ⟨bytes, mode, holds, rest⟩ := copied.files d there file
      exact ⟨bytes, mode, by rw [if_neg (fun same => by rw [same, free] at holds; cases holds), holds], rest⟩
    · obtain rfl := List.mem_singleton.mp is
      obtain ⟨bytes, mode, rfl, rest⟩ := isFile file
      exact ⟨bytes, mode, if_pos rfl, rest⟩
  within path item' is := by
    unfold Thing.put at is
    split at is
    · rename_i same
      exact .inr ⟨e, by simp, same.symm⟩
    · rcases copied.within path item' is with top | ⟨d, there, same⟩
      · exact .inl top
      · exact .inr ⟨d, by simp [there], same⟩

theorem copyEntry_ok {e : Entry} {done : List Entry} (stands : s.dir.names part = some thing)
    (copied : Copied w lo s.now done thing) (from_ : lo ≤ s.now) (ran : copyEntry w part e s = (.ok (), s')) :
    ∃ thing', s'.dir.names part = some thing' ∧ Copied w lo s'.now (done ++ [e]) thing' := by
  have ends : s.now ≤ s'.now := ((copyEntry_moves e).of_run ran : Owned w part _ _).grown.later
  obtain ⟨stop, s₁, asked, ran⟩ := Work.bind_ok.mp ran
  cases asked
  split at ran
  · cases ran
  obtain ⟨path, s₂, lifted, rest⟩ := Work.bind_ok.mp ran
  obtain ⟨checked, rfl⟩ := Work.lift_ok.mp lifted
  obtain ⟨rfl, -⟩ := relative_ok checked
  have stands' := tick_part (w := w) stands
  split at rest
  · rename_i isDir
    obtain ⟨-, free, stands'⟩ := makeIn_ok rest stands'
    refine ⟨_, stands', (copied.later ends).add free (fun _ => rfl) fun isFile => ?_⟩
    rw [isDir] at isFile
    cases isFile
  · rename_i isFile
    obtain ⟨free, bytes, mode, stands', size, whole⟩ := copyFile_ok stands' rest
    refine ⟨_, stands', (copied.later ends).add free (fun isDir => absurd isDir isFile) fun _ => ?_⟩
    exact ⟨bytes, mode, rfl, size, fun all settled => whole all (settled.mono (Nat.le_succ_of_le from_) (Nat.le_refl _))⟩

theorem copyAll_ok : ∀ {es done : List Entry} {s s' : State} {thing : Thing},
    s.dir.names part = some thing → Copied w lo s.now done thing → lo ≤ s.now → copyAll w part es s = (.ok (), s') →
    ∃ thing', s'.dir.names part = some thing' ∧ Copied w lo s'.now (done ++ es) thing'
  | [], done, s, s', thing, stands, copied, _, ran => by
      cases ran
      rw [List.append_nil]
      exact ⟨thing, stands, copied⟩
  | e :: rest, done, s, s', thing, stands, copied, from_, ran => by
      obtain ⟨_, s₁, first, ran⟩ := Work.bind_ok.mp ran
      obtain ⟨thing₁, stands, copied⟩ := copyEntry_ok stands copied from_ first
      have later : s.now ≤ s₁.now := ((copyEntry_moves e).of_run first : Owned w part _ _).grown.later
      obtain ⟨thing', stands, copied⟩ := copyAll_ok stands copied (Nat.le_trans from_ later) ran
      rw [List.append_assoc] at copied
      exact ⟨thing', stands, copied⟩

/-! ### Permissions -/

/-- These entries' files have their permissions, and the rest is as it was. -/
structure Permitted (es : List Entry) (thing thing' : Thing) : Prop where
  kind : ∀ path, (∃ bytes mode mode', thing path = some (.file bytes mode) ∧ thing' path = some (.file bytes mode')) ∨
    thing' path = thing path
  given : ∀ e ∈ es, e.dir = false → e.mode ≠ 0 → ∀ bytes mode, thing' (parts e.path) = some (.file bytes mode) →
    mode = e.mode % 0o1000

theorem permit_ok : ∀ {es : List Entry} {s s' : State} {thing : Thing},
    (es.map fun e => parts e.path).Nodup → s.dir.names part = some thing → permit w part es s = (.ok (), s') →
    ∃ thing', s'.dir.names part = some thing' ∧ Permitted es thing thing' ∧
      ∀ path, (∀ e ∈ es, parts e.path ≠ path) → thing' path = thing path
  | [], s, s', thing, _, stands, ran => by
      cases ran
      exact ⟨thing, stands, ⟨fun _ => .inr rfl, by simp⟩, fun _ _ => rfl⟩
  | e :: rest, s, s', thing, distinct, stands, ran => by
      obtain ⟨new, distinct⟩ := List.nodup_cons.mp distinct
      have other : ∀ d ∈ rest, parts d.path ≠ parts e.path := fun d there same => new (List.mem_map.mpr ⟨d, there, same⟩)
      rw [permit] at ran
      split at ran
      · rename_i known
        obtain ⟨path, s₁, lifted, ran⟩ := Work.bind_ok.mp ran
        obtain ⟨_, s₂, changed, goes⟩ := Work.bind_ok.mp ran
        obtain ⟨checked, rfl⟩ := Work.lift_ok.mp lifted
        obtain ⟨rfl, -⟩ := relative_ok checked
        obtain ⟨bytes, mode, holds, stands'⟩ := changeIn_ok changed stands
        obtain ⟨thing', stands', permitted, untouched⟩ := permit_ok distinct stands' goes
        have here : thing' (parts e.path) = some (.file bytes (e.mode % 0o1000)) := by
          rw [untouched _ other, Thing.put, if_pos rfl]
        refine ⟨thing', stands', ⟨fun path => ?_, fun d there => ?_⟩, fun path away => ?_⟩
        · by_cases same : path = parts e.path
          · subst same
            exact .inl ⟨bytes, mode, _, holds, here⟩
          · have := permitted.kind path
            rwa [Thing.put, if_neg same] at this
        · rcases List.mem_cons.mp there with rfl | there
          · intro _ _ bytes' mode' is
            rw [here] at is
            cases is
            rfl
          · exact permitted.given d there
        · rw [untouched path fun d there => away d (List.mem_cons_of_mem _ there), Thing.put,
            if_neg (Ne.symm (away e (by simp)))]
      · rename_i unknown
        obtain ⟨thing', stands', permitted, untouched⟩ := permit_ok distinct stands ran
        refine ⟨thing', stands', ⟨permitted.kind, fun d there => ?_⟩, fun path away => ?_⟩
        · rcases List.mem_cons.mp there with rfl | there
          · exact fun isFile some => absurd ⟨isFile, some⟩ unknown
          · exact permitted.given d there
        · exact untouched path fun d there => away d (.tail _ there)

/-! ### The whole copy -/

def bytesAt (source : Source) (path : List Name) : Option Bytes := (source.file path).map source.content

/-- Equal manifests at two observations mean equal contents in between. -/
def Steady (w : World) (path : Spelling) : Prop :=
  ∀ {s₁ s₁' s₂ s₂' m}, scan w path s₁ = (.ok (some m), s₁') → scan w path s₂ = (.ok (some m), s₂') → s₁'.now ≤ s₂.now →
    ∀ e ∈ m.entries, e.dir = false → ∃ bytes, (∀ u, s₁'.now ≤ u → u < s₂.now →
      bytesAt (w u).source (parts e.path) = some bytes) ∧ Settled w s₁'.now s₂.now (parts e.path) bytes

/-- What stands under a name is the manifest, with the bytes the source had all the time between two moments. -/
structure Copy (w : World) (lo hi : Nat) (m : Manifest) (thing : Thing) : Prop where
  top : thing [] = some .dir
  dirs : ∀ e ∈ m.entries, e.dir = true → thing (parts e.path) = some .dir
  files : ∀ e ∈ m.entries, e.dir = false → ∃ bytes mode, thing (parts e.path) = some (.file bytes mode) ∧
    bytes.length = e.size ∧ (∀ u, lo ≤ u → u < hi → bytesAt (w u).source (parts e.path) = some bytes) ∧
    (e.mode ≠ 0 → mode = e.mode % 0o1000)
  within : ∀ path item, thing path = some item → path = [] ∨ ∃ e ∈ m.entries, parts e.path = path

theorem partOf_ne (name : Name) : partOf name ≠ name := by
  intro same
  have longer := congrArg List.length same
  simp [partOf] at longer
  omega

theorem publish_ok {at_ : Landing} (other : at_.part ≠ at_.dest) (stands : s.dir.names at_.part = some thing)
    (ran : publish w at_ s = (.ok dest, s')) :
    dest = at_.dest ∧ ∃ s₁, Grown w nobody s s₁ ∧ s₁.now = s'.now ∧ s₁.dir.names at_.dest = none ∧
      s'.dir.names at_.dest = some thing ∧ s'.dir.names at_.part = none ∧
      ∀ n, n ≠ at_.dest → n ≠ at_.part → s'.dir.names n = s₁.dir.names n := by
  obtain ⟨there, s₁, looked, ran⟩ := Work.bind_ok.mp ran
  split at ran
  · cases ran
  obtain ⟨_, s₂, renamed, last⟩ := Work.bind_ok.mp ran
  cases last
  obtain ⟨m, s₃, called, is⟩ := Work.bind_ok.mp renamed
  obtain ⟨-, rfl⟩ := call_ok called
  have grown : Grown w nobody s s₁ := (taken_moves _).of_run looked
  have stands := grown.kept _ _ id stands
  have grown : Grown w nobody s (tick w s₁).2 := grown.trans (Grown.tick s₁)
  have stands := tick_part (w := w) stands
  split at is
  · cases is
  rename_i free
  cases is
  have there := there_of_names stands
  have there' : (tick w s₁).2.dir.set at_.dest ((tick w s₁).2.dir.names at_.part) ≠ none := by
    cases is : (tick w s₁).2.dir with
    | none => exact absurd is there
    | some names => exact Option.some_ne_none _
  refine ⟨rfl, _, grown, rfl, Option.not_isSome_iff_eq_none.mp free, ?_, ?_, fun n noDest noPart => ?_⟩
  · rw [names_set _ there', if_neg (Ne.symm other), names_set _ there, if_pos rfl, stands]
  · rw [names_set _ there', if_pos rfl]
  · rw [names_set _ there', if_neg noPart, names_set _ there, if_neg noDest]

/-- From the landing on: the part holds the manifest as it was scanned, and it was scanned again the same. -/
theorem fill_ok {source : Spelling} {m : Manifest} {at_ : Landing} (law : Lawful m.entries)
    (other : at_.part ≠ at_.dest) (stands : s.dir.names at_.part = some empty)
    (ran : fill w source m at_ s = (.ok dest, s')) :
    dest = at_.dest ∧ ∃ s₁ s₂ s₃ copied thing, scan w source s₁ = (.ok (some m), s₂) ∧ s.now < s₁.now ∧ s₁.now ≤ s'.now ∧
      Owned w at_.part s s₃ ∧ s₃.now = s'.now ∧ s₃.dir.names at_.dest = none ∧ s'.dir.names at_.dest = some thing ∧
      s'.dir.names at_.part = none ∧ (∀ n, n ≠ at_.dest → n ≠ at_.part → s'.dir.names n = s₃.dir.names n) ∧
      Copied w s.now s₁.now m.entries copied ∧ Permitted m.entries.reverse copied thing := by
  obtain ⟨_, s₁, filled, ran⟩ := Work.bind_ok.mp ran
  obtain ⟨stop, s₂, asked, ran⟩ := Work.bind_ok.mp ran
  cases asked
  split at ran
  · cases ran
  obtain ⟨again, s₃, scanned, ran⟩ := Work.bind_ok.mp ran
  split at ran
  · cases ran
  rename_i same
  rw [Decidable.not_not.mp same] at scanned
  obtain ⟨_, s₄, permitted, published⟩ := Work.bind_ok.mp ran
  obtain ⟨copied, stands₁, holds⟩ := copyAll_ok stands (Copied.start s.now) (Nat.le_refl _) filled
  have owned : Owned w at_.part s s₁ := (copyAll_moves _).of_run filled
  have owned : Owned w at_.part s (tick w s₁).2 := owned.trans (Grown.owned (Grown.tick s₁))
  have scans : Grown w nobody (tick w s₁).2 s₃ := (scan_moves _).of_run scanned
  have permits : Owned w at_.part s₃ s₄ := (permit_moves _).of_run permitted
  have stands₃ := scans.kept _ _ id (tick_part (w := w) stands₁)
  have distinct : (m.entries.reverse.map fun e => parts e.path).Nodup := by
    rw [List.map_reverse, List.nodup_reverse, show (fun e : Entry => parts e.path) = parts ∘ (·.path) from rfl,
      ← List.map_map]
    exact law.distinct.map fun _ _ => parts_inj
  obtain ⟨thing, stands₄, given, -⟩ := permit_ok distinct stands₃ permitted
  obtain ⟨is, s₅, grown, now, free, holds', gone, others⟩ := publish_ok other stands₄ published
  have whole : Owned w at_.part s s₅ := ((owned.trans scans.owned).trans permits).trans grown.owned
  have first : s.now ≤ s₁.now := ((copyAll_moves _).of_run filled : Owned w at_.part _ _).grown.later
  have last : (tick w s₁).2.now ≤ s'.now := now ▸ Nat.le_trans scans.later (Nat.le_trans permits.grown.later grown.later)
  refine ⟨is, (tick w s₁).2, s₃, s₅, copied, thing, scanned, Nat.lt_succ_of_le first, last, whole, now, free, holds', gone,
    others, ?_, given⟩
  rw [List.nil_append] at holds
  exact holds.later (Nat.le_succ _)

/-- What was copied, with its permissions, is a copy where the contents stayed. -/
theorem copied_copy {lo' : Nat} {m : Manifest} {copied : Thing} (whole : Copied w lo' hi m.entries copied)
    (given : Permitted m.entries.reverse copied thing)
    (steady : ∀ e ∈ m.entries, e.dir = false → ∃ bytes, (∀ u, lo ≤ u → u < hi →
      bytesAt (w u).source (parts e.path) = some bytes) ∧ Settled w lo hi (parts e.path) bytes) (later : lo ≤ lo') :
    Copy w lo hi m thing where
  top := by
    rcases given.kind [] with ⟨_, _, _, is, -⟩ | same
    · rw [whole.top] at is
      cases is
    · rw [same, whole.top]
  dirs e there isDir := by
    have holds := whole.dirs e there isDir
    rcases given.kind (parts e.path) with ⟨_, _, _, is, -⟩ | same
    · rw [holds] at is
      cases is
    · rw [same, holds]
  files e there isFile := by
    obtain ⟨bytes, mode, holds, size, is⟩ := whole.files e there isFile
    obtain ⟨bytes', had, settled⟩ := steady e there isFile
    obtain rfl := is bytes' (settled.mono later (Nat.le_refl _))
    have permitted := given.given e (List.mem_reverse.mpr there) isFile
    rcases given.kind (parts e.path) with ⟨bytes', _, mode', is, holds'⟩ | same
    · rw [holds] at is
      cases is
      exact ⟨bytes, mode', holds', size, had, fun some => permitted some bytes mode' holds'⟩
    · rw [← same] at holds
      exact ⟨bytes, mode, holds, size, had, fun some => permitted some bytes mode holds⟩
  within path item is := by
    rcases given.kind path with ⟨bytes, mode, mode', is', -⟩ | same
    · exact whole.within path _ is'
    · exact whole.within path item (same ▸ is)

/-- **A copy that succeeds**: a name that nothing stood under holds what was scanned. -/
theorem copyInto_done {source : Spelling} (steady : Steady w source) (ran : copyInto w source s = (.ok dest, s')) :
    s.dir.names dest = none ∧ (∀ t, s.now ≤ t → t < s'.now → (w t).others.names dest = none) ∧
      Clean w (· = dest) s s' ∧ ∃ m s₁ s₂ s₃ s₄ thing, scan w source s₁ = (.ok (some m), s₂) ∧
        scan w source s₃ = (.ok (some m), s₄) ∧ s.now ≤ s₁.now ∧ s₂.now < s₃.now ∧ s₃.now ≤ s'.now ∧
        s'.dir.names dest = some thing ∧ Copy w s₂.now s₃.now m thing := by
  obtain ⟨canonical, a, asked, ran⟩ := Work.bind_ok.mp ran
  obtain ⟨now, b, ticked, ran⟩ := Work.bind_ok.mp ran
  split at ran
  · cases ran
  obtain ⟨found, c, scanned, ran⟩ := Work.bind_ok.mp ran
  cases found with
  | none => cases ran
  | some m =>
      obtain ⟨name, d, named, rest⟩ := Work.bind_ok.mp ran
      obtain ⟨at_, f, made, last⟩ := Work.bind_ok.mp rest
      obtain ⟨-, rfl⟩ := Work.lift_ok.mp named
      have before : Grown w nobody s b :=
        ((ask_moves _).of_run asked : Grown w nobody s a).trans (tick_moves.of_run ticked)
      have grown : Grown w nobody s d := before.trans ((scan_moves _).of_run scanned)
      rcases landing_run name made with ⟨_, is, landed⟩ | ⟨⟨_, is⟩, -⟩
      rotate_left
      · cases is
      cases is
      unfold dropping at last
      match filled : fill w source m at_ f with
      | (.error e, g) =>
          rw [filled] at last
          cases last
      | (.ok dest', g) =>
          rw [filled] at last
          cases last
          obtain ⟨entries, accepted⟩ := scan_checked scanned
          have law : Lawful m.entries := (checked_iff.mp (validate_checked accepted).1).2.1
          obtain ⟨⟨s₀, grown₀, now₀, free₀, others₀⟩, stands, part⟩ := landed
          have other : at_.part ≠ at_.dest := part ▸ partOf_ne at_.dest
          obtain ⟨rfl, s₃, s₄, s₅, copied, thing, again, first, last', owned, now₅, free, holds, gone, others, whole,
            given⟩ := fill_ok law other stands filled
          have ahead : Grown w (· = at_.part) s s₅ :=
            ((grown.trans grown₀).mono fun _ is => is.elim).trans
              (Grown.trans (.of_same now₀ fun n other => others₀ n other) owned.grown)
          have passed : d.now ≤ f.now := now₀ ▸ grown₀.later
          have destFree : s.dir.names at_.dest = none := by
            cases is : s.dir.names at_.dest with
            | none => rfl
            | some thing => exact absurd free (ahead.stands (Ne.symm other) (by rw [is]; exact Option.some_ne_none _))
          have partFree : s.dir.names at_.part = none := by
            cases is : s.dir.names at_.part with
            | none => rfl
            | some thing =>
                have := (grown.trans grown₀).kept _ _ id is
                rw [free₀] at this
                cases this
          refine ⟨destFree, fun t after before => ?_, ?_, m, b, d, s₃, s₄, thing, scanned, again, before.later, by omega,
            last', holds, ?_⟩
          · exact Decidable.not_not.mp fun created => ahead.came _ t (Ne.symm other) after (now₅ ▸ before) created free
          · refine ⟨now₅ ▸ ahead.later, fun n thing noDest is => ?_, fun n thing noDest is => ?_⟩
            · by_cases isPart : n = at_.part
              · rw [isPart, partFree] at is
                cases is
              · rw [others n noDest isPart]
                exact ahead.kept n thing isPart is
            · by_cases isPart : n = at_.part
              · rw [isPart, gone] at is
                cases is
              · rw [others n noDest isPart] at is
                exact now₅ ▸ ahead.theirs n thing isPart is
          · exact copied_copy whole given (steady scanned again (by omega)) passed

/-! ### No loop goes on for longer than it can -/

/-- **A copied directory is the source or nothing.** What a walk collects is accepted, so is what is scanned, and a source
that stays within the limits is scanned; what is accepted stays under every root, with directories in front of what is
in them and nothing under a file; a copy that succeeds took a free name, and one that fails leaves no name. -/
theorem tree_copied (w : World) (source : Spelling) :
    (∀ s s' entries, entriesOf w s = (.ok entries, s') → ∃ m, checked entries = .ok m ∧ validate m = .ok ()) ∧
    (∀ s s' m, scan w source s = (.ok (some m), s') → checked m.entries = .ok m ∧ validate m = .ok ()) ∧
    (∀ tree all s, source.head? = some '/' → Still w tree → Within tree all →
      ∃ m s', scan w source s = (.ok (some m), s')) ∧
    (∀ m, validate m = .ok () → (∀ e ∈ m.entries, ∃ names, relative e.path = .ok names ∧ names ≠ [] ∧
        ∀ root, joined root e.path = root ++ names) ∧
      (∀ pre e post above below, m.entries = pre ++ e :: post → e.path = above ++ '/' :: below →
        ∃ d ∈ pre, d.path = above ∧ d.dir = true) ∧
      ∀ d ∈ m.entries, ∀ e ∈ m.entries, ∀ below, e.path = d.path ++ '/' :: below → d.dir = true) ∧
    (Steady w source → ∀ s s' dest, copyInto w source s = (.ok dest, s') →
      s.dir.names dest = none ∧ (∀ t, s.now ≤ t → t < s'.now → (w t).others.names dest = none) ∧
      Clean w (· = dest) s s' ∧ ∃ m s₁ s₂ s₃ s₄ thing, scan w source s₁ = (.ok (some m), s₂) ∧
        scan w source s₃ = (.ok (some m), s₄) ∧ s.now ≤ s₁.now ∧ s₂.now < s₃.now ∧ s₃.now ≤ s'.now ∧
        s'.dir.names dest = some thing ∧ Copy w s₂.now s₃.now m thing) ∧
    ∀ s s' e, copyInto w source s = (.error e, s') → Clean w nobody s s' := by
  refine ⟨fun s s' entries ran => ?_, fun s s' m ran => ?_, fun tree all s absolute still within => ?_, fun m valid => ?_,
    fun steady s s' dest ran => copyInto_done steady ran, fun s s' e ran => copyInto_failed ran⟩
  · have accepted := entriesOf_checked ran
    exact ⟨_, accepted, (validate_checked accepted).2⟩
  · obtain ⟨entries, accepted⟩ := scan_checked ran
    exact validate_checked accepted
  · exact scan_still still within absolute s
  · have accepted := validate_ok.mp valid
    obtain ⟨-, law, is⟩ := checked_iff.mp accepted
    have order : sorted m.entries = m.entries := (congrArg Manifest.entries is).symm
    refine ⟨fun e there => ?_, fun pre e post above below split under => ?_, fun d there e here below under => ?_⟩
    · obtain ⟨names, plain⟩ := law.plain e there
      exact ⟨names, plain, (joined_under plain []).2, fun root => (joined_under plain root).1⟩
    · exact law.behind (order.trans split) under
    · exact law.under there here under

/-! ### The receive directory -/

/-- An empty directory that stays as it is. -/
def hollow : Source where
  canonical := some [['a']]
  leadsToFile := false
  stat path := if path = [] then some ⟨.dir, 0, 0, 0o755⟩ else none
  names path := if path = [] then some [] else none
  file _ := none
  content _ := []
  distinct given := by
    split at given <;> cases given
    exact List.nodup_nil
  plain given there := by
    split at given <;> cases given
    cases there

/-- A job that was stopped before it began. -/
def stoppedJob : World := fun _ => ⟨hollow, none, none, true, false, 0, 0o644⟩

/-- A directory with a file that has no permission bits at all. -/
def sealed : Source where
  canonical := some [['a']]
  leadsToFile := false
  stat path :=
    if path = [] then some ⟨.dir, 0, 0, 0o755⟩ else if path = [['f']] then some ⟨.file, 0, 0, 0⟩ else none
  names path := if path = [] then some [.text ['f']] else none
  file path := if path = [['f']] then some 0 else none
  content _ := []
  distinct given := by
    split at given <;> cases given
    exact List.nodup_singleton _
  plain given there := by
    split at given <;> cases given
    cases there with
    | head => decide
    | tail _ there => cases there

def sealedJob : World := fun _ => ⟨sealed, none, none, false, false, 0, 0o644⟩

/-- A copy that was stopped leaves the receive directory it made, and one that succeeds gives a file without permission
bits those of a new file. -/
theorem receive_stays :
    ((copyInto stoppedJob ['/', 'a'] ⟨0, none⟩).1 = .error .cancelled ∧
      (copyInto stoppedJob ['/', 'a'] ⟨0, none⟩).2.dir.isSome = true) ∧
    (copyInto sealedJob ['/', 'a'] ⟨0, none⟩).1.toOption = some ['a'] ∧
      ((copyInto sealedJob ['/', 'a'] ⟨0, none⟩).2.dir.bind fun names => (names ['a']).bind (· [['f']])) =
        some (.file [] 0o644) := by
  refine ⟨by decide +kernel, by decide +kernel, by decide +kernel⟩

end Khor.Tree
