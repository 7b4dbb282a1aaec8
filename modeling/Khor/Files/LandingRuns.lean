/-
Module: Khor.Files.LandingRuns
Purpose: In every run that meets the condition no landing replaces a file, no two movers have one destination, and each
  mover that reports success finds its bytes.
Trusted boundary: none
Main exports: Inv, Inv.moves, Inv.step, landings_keep_files, landings_replace
-/
import Khor.Files.Landing

namespace Khor.Landing

/-! ### Names -/

theorem ne_partOf (dest : String) : dest ≠ partOf dest := by
  intro same
  have := congrArg (fun s : String => s.toList.length) same
  simp [partOf, String.toList_append] at this
  omega

theorem ne_noteOf (dest : String) : dest ≠ noteOf dest := by
  intro same
  have := congrArg (fun s : String => s.toList.length) same
  simp [partOf, noteOf, String.toList_append] at this
  omega

theorem partOf_ne_noteOf (dest : String) : partOf dest ≠ noteOf dest := by
  intro same
  have := congrArg (fun s : String => s.toList.length) same
  simp [noteOf, String.toList_append] at this

variable {dest dest' q : String} {w w' : World} {phase : Phase} {disk : Dir} {i : Nat}

theorem partOf_inj (same : partOf dest = partOf dest') : dest = dest' := by
  have lists := congrArg String.toList same
  simp only [partOf, String.toList_append] at lists
  exact String.toList_inj.mp (List.append_cancel_left lists)

theorem noteOf_inj (same : noteOf dest = noteOf dest') : dest = dest' := by
  have lists := congrArg String.toList same
  simp only [noteOf, String.toList_append] at lists
  exact partOf_inj (String.toList_inj.mp (List.append_cancel_right lists))

theorem Apart.symm (apart : Apart dest dest') : Apart dest' dest :=
  ⟨apart.dests.symm, apart.part', apart.note', apart.part, apart.note, apart.notePart.symm, apart.partNote.symm⟩

/-- A name of a mover: its destination, its part or its note. -/
def Its (dest p : String) : Prop := p = dest ∨ p = partOf dest ∨ p = noteOf dest

theorem Apart.its {p : String} (apart : Apart dest dest') (its : Its dest p) : ¬ Its dest' p := by
  rintro (rfl | rfl | rfl) <;> obtain same | same | same := its
  · exact apart.dests same.symm
  · exact apart.part' same
  · exact apart.note' same
  · exact apart.part same.symm
  · exact apart.dests (partOf_inj same).symm
  · exact apart.notePart same.symm
  · exact apart.note same.symm
  · exact apart.partNote same.symm
  · exact apart.dests (noteOf_inj same).symm

theorem splice_end (data bytes : Bytes) : splice data data.length bytes = data ++ bytes := by
  simp [splice]

/-! ### The invariant -/

/-- What a mover has by where it is. -/
def Own (w : World) : Phase → Prop
  | .given _ dest => w.disk.names dest = none
  | .filling m dest ino offset _ =>
      w.disk.names dest = none ∧ partOf dest ∈ w.temps ∧ w.disk.names (partOf dest) = some (.file ino) ∧
        w.disk.text (partOf dest) = some (m.body.take offset) ∧ offset ≤ m.body.length
  | .filled m dest => w.disk.names dest = none ∧ partOf dest ∈ w.temps ∧ w.disk.text (partOf dest) = some m.body
  | .placed m dest | .done m dest => dest ∉ w.temps ∧ w.disk.text dest = some m.body
  | _ => True

theorem text_there {d : Dir} {p : String} {body : Bytes} (text : d.text p = some body) : d.names p ≠ none := by
  unfold Disk.text at text
  intro free
  rw [free] at text
  cases text

structure Inv (disk : Dir) (w : World) : Prop extends Kept disk w where
  first : ∀ p, disk.names p ≠ none → p ∉ w.temps
  created : ∀ p body, (p, body) ∈ w.log → p ∉ w.temps
  temps : ∀ t ∈ w.temps, w.disk.Plain () t
  spare : ∀ i phase dest, w.movers i = some phase → phase.flight = some dest →
    w.Spare (partOf dest) ∧ w.Spare (noteOf dest)
  distinct : ∀ i j phase phase' dest dest', i ≠ j → w.movers i = some phase → w.movers j = some phase' →
    phase.flight = some dest → phase'.flight = some dest' → Apart dest dest'
  own : ∀ i phase, w.movers i = some phase → Own w phase

/-- A step about the names of one mover: files that are there and no temporaries stay. -/
structure About (w w' : World) (dest : String) : Prop where
  touch : ∀ p, ¬ Its dest p → w'.disk.names p = w.disk.names p ∧ w'.disk.text p = w.disk.text p ∧
    (p ∈ w'.temps ↔ p ∈ w.temps)
  keep : ∀ p, w.disk.names p ≠ none → p ∉ w.temps →
    w'.disk.names p = w.disk.names p ∧ w'.disk.text p = w.disk.text p ∧ p ∉ w'.temps
  plain : (∀ t ∈ w.temps, w.disk.Plain () t) → ∀ t ∈ w'.temps, w'.disk.Plain () t

/-- What a mover has does not depend on names that are not its own. -/
theorem own_besides (about : About w w' dest) (flight : phase.flight = some dest') (apart : Apart dest dest')
    (own : Own w phase) : Own w' phase := by
  have same (p : String) (its : Its dest' p) := about.touch p (apart.symm.its its)
  have atDest := same dest' (.inl rfl)
  have atPart := same (partOf dest') (.inr (.inl rfl))
  cases phase with
  | given m d =>
      cases flight
      exact atDest.1.trans own
  | filling m d ino offset append =>
      cases flight
      obtain ⟨free, mem, named, text, le⟩ := own
      exact ⟨atDest.1.trans free, atPart.2.2.mpr mem, atPart.1.trans named, atPart.2.1.trans text, le⟩
  | filled m d =>
      cases flight
      obtain ⟨free, mem, text⟩ := own
      exact ⟨atDest.1.trans free, atPart.2.2.mpr mem, atPart.2.1.trans text⟩
  | placed m d =>
      cases flight
      exact ⟨fun mem => own.1 (atDest.2.2.mp mem), atDest.2.1.trans own.2⟩
  | failed | looking | found | refused => trivial
  | done => cases flight
  | gone => trivial

/-- One mover goes on, at its own names. -/
theorem Inv.moves (inv : Inv disk w) (is : w'.movers = (w.at i phase).movers) (log : w'.log = w.log)
    (about : About w w' dest)
    (flight : ∀ dest', phase.flight = some dest' → dest' = dest ∧ w'.Spare (partOf dest) ∧ w'.Spare (noteOf dest))
    (besides : ∀ j phase' dest'', j ≠ i → w.movers j = some phase' → phase'.flight = some dest'' → Apart dest dest'')
    (has : ∀ dest', phase.has = some dest' → ∀ j phase', j ≠ i → w.movers j = some phase' → phase'.has ≠ some dest')
    (own : Own w' phase) : Inv disk w' := by
  have cases_ {j : Nat} {phase' : Phase} (there : w'.movers j = some phase') :
      j = i ∧ phase' = phase ∨ j ≠ i ∧ w.movers j = some phase' := by
    rw [is] at there
    change (if j = i then some phase else w.movers j) = some phase' at there
    split at there
    · rename_i same
      exact .inl ⟨same, (Option.some.inj there).symm⟩
    · rename_i ne
      exact .inr ⟨ne, there⟩
  have stays (p : String) (first : disk.names p ≠ none) := about.keep p ((inv.stays p first).1 ▸ first) (inv.first p first)
  have createds (p : String) (body : Bytes) (mem : (p, body) ∈ w.log) :=
    about.keep p (text_there (inv.others p body mem)) (inv.created p body mem)
  have owns : ∀ j phase', w'.movers j = some phase' → Own w' phase' := by
    intro j phase' there
    obtain ⟨_, rfl⟩ | ⟨ne, was⟩ := cases_ there
    · exact own
    · have had := inv.own j phase' was
      cases flights : phase'.flight with
      | some dest' => exact own_besides about flights (besides j phase' dest' ne was flights) had
      | none =>
          cases phase' with
          | done m d =>
              obtain ⟨_, text, out⟩ := about.keep d (text_there had.2) had.1
              exact ⟨out, text.trans had.2⟩
          | given | filling | filled | placed | failed => cases flights
          | looking | found | refused | gone => trivial
  exact
    { stays := fun p first => ⟨(stays p first).1.trans (inv.stays p first).1, (stays p first).2.1.trans (inv.stays p first).2⟩
      others := by
        intro p body mem
        rw [log] at mem
        exact (createds p body mem).2.1.trans (inv.others p body mem)
      apart := by
        intro j k phase' phase'' dest' there there' has' has''
        obtain ⟨rfl, rfl⟩ | ⟨ne, was⟩ := cases_ there
        · obtain ⟨rfl, rfl⟩ | ⟨ne', was'⟩ := cases_ there'
          · rfl
          · exact absurd has'' (has dest' has' k phase'' ne' was')
        · obtain ⟨rfl, rfl⟩ | ⟨ne', was'⟩ := cases_ there'
          · exact absurd has' (has dest' has'' j phase' ne was)
          · exact inv.apart j k phase' phase'' dest' was was' has' has''
      lands := fun j m d there => (owns j _ there).2
      first := fun p first => (stays p first).2.2
      created := by
        intro p body mem
        rw [log] at mem
        exact (createds p body mem).2.2
      temps := about.plain inv.temps
      spare := by
        intro j phase' dest' there flights
        obtain ⟨_, rfl⟩ | ⟨ne, was⟩ := cases_ there
        · obtain ⟨rfl, part, note⟩ := flight dest' flights
          exact ⟨part, note⟩
        · have apart := (besides j phase' dest' ne was flights).symm
          obtain ⟨part, note⟩ := inv.spare j phase' dest' was flights
          have atPart := about.touch (partOf dest') (apart.its (.inr (.inl rfl)))
          have atNote := about.touch (noteOf dest') (apart.its (.inr (.inr rfl)))
          exact ⟨part.imp atPart.1.trans atPart.2.2.mpr, note.imp atNote.1.trans atNote.2.2.mpr⟩
      distinct := by
        intro j k phase' phase'' dest' dest'' ne there there' flights flights'
        obtain ⟨rfl, rfl⟩ | ⟨nej, was⟩ := cases_ there
        · obtain ⟨rfl, _⟩ | ⟨nek, was'⟩ := cases_ there'
          · exact absurd rfl ne
          · obtain ⟨rfl, _⟩ := flight dest' flights
            exact besides k phase'' dest'' nek was' flights'
        · obtain ⟨rfl, rfl⟩ | ⟨nek, was'⟩ := cases_ there'
          · obtain ⟨rfl, _⟩ := flight dest'' flights'
            exact (besides j phase' dest' nej was flights).symm
          · exact inv.distinct j k phase' phase'' dest' dest'' ne was was' flights flights'
      own := owns }

/-- A mover goes on without a destination. -/
theorem Inv.stands (inv : Inv disk w) (flight : phase.flight = none) (has : phase.has = none) :
    Inv disk (w.at i phase) := by
  have cases_ {j : Nat} {phase' : Phase} (there : (w.at i phase).movers j = some phase') :
      phase' = phase ∨ w.movers j = some phase' := by
    change (if j = i then some phase else w.movers j) = some phase' at there
    split at there
    · exact .inl (Option.some.inj there).symm
    · exact .inr there
  have own : Own w phase := by
    cases phase <;> trivial
  exact
    { stays := inv.stays
      others := inv.others
      apart := by
        intro j k phase' phase'' dest there there' has' has''
        obtain rfl | was := cases_ there
        · cases has.symm.trans has'
        · obtain rfl | was' := cases_ there'
          · cases has.symm.trans has''
          · exact inv.apart j k phase' phase'' dest was was' has' has''
      lands := by
        intro j m d there
        obtain rfl | was := cases_ there
        · cases has
        · exact inv.lands j m d was
      first := inv.first
      created := inv.created
      temps := inv.temps
      spare := by
        intro j phase' dest there flights
        obtain rfl | was := cases_ there
        · cases flight.symm.trans flights
        · exact inv.spare j phase' dest was flights
      distinct := by
        intro j k phase' phase'' dest dest' ne there there' flights flights'
        obtain rfl | was := cases_ there
        · cases flight.symm.trans flights
        · obtain rfl | was' := cases_ there'
          · cases flight.symm.trans flights'
          · exact inv.distinct j k phase' phase'' dest dest' ne was was' flights flights'
      own := by
        intro j phase' there
        obtain rfl | was := cases_ there
        · exact own
        · exact inv.own j phase' was }

/-! ### Steps at the names of a mover -/

theorem About.refl (w w' : World) (disk : w'.disk = w.disk) (temps : w'.temps = w.temps) (dest : String) :
    About w w' dest where
  touch := fun p _ => by rw [disk, temps]; exact ⟨rfl, rfl, .rfl⟩
  keep := fun p _ out => by rw [disk, temps]; exact ⟨rfl, rfl, out⟩
  plain := fun plain t mem => by
    rw [disk]
    exact plain t (temps ▸ mem)

/-- A change of one name that is free or a temporary. -/
theorem About.only (its : Its dest q) (only : w.disk.Only w'.disk q) (spare : w.Spare q)
    (temps : ∀ p, p ≠ q → (p ∈ w'.temps ↔ p ∈ w.temps))
    (plain : (∀ t ∈ w.temps, w.disk.Plain () t) → q ∈ w'.temps → w'.disk.Plain () q) : About w w' dest where
  touch := by
    intro p other
    have ne : p ≠ q := fun same => other (same ▸ its)
    exact ⟨only.names p ne, only.text ne, temps p ne⟩
  keep := by
    intro p there out
    have ne : p ≠ q := by
      rintro rfl
      obtain free | mem := spare
      · exact there free
      · exact out mem
    exact ⟨only.names p ne, only.text ne, fun mem => out ((temps p ne).mp mem)⟩
  plain := by
    intro all t mem
    by_cases here : t = q
    · rw [here]
      exact plain all (here ▸ mem)
    · exact (only.keeps here).plain (all t ((temps t here).mp mem))

theorem remove_only (inv : ∀ t ∈ w.temps, w.disk.Plain () t) (spare : w.Spare q) : w.disk.Only (w.disk.drop q) q := by
  obtain free | mem := spare
  · refine ⟨fun p ne => if_neg ne, fun _ _ _ _ => rfl, fun p ne ino is => ?_⟩
    simp [Disk.drop, free]
  · exact Disk.drop_only (inv q mem)

theorem remove_about (inv : ∀ t ∈ w.temps, w.disk.Plain () t) (its : Its dest q) (spare : w.Spare q)
    (disk : w'.disk = w.disk.drop q) (temps : w'.temps = w.temps.filter (· ≠ q)) : About w w' dest := by
  refine About.only its (disk ▸ remove_only inv spare) spare (fun p ne => by simp [temps, ne]) fun _ mem => ?_
  simp [temps] at mem

/-- What a mover in flight may count on. -/
theorem Inv.besides (inv : Inv disk w) {old : Phase} (was : w.movers i = some old) (flight : old.flight = some dest) :
    ∀ j phase dest', j ≠ i → w.movers j = some phase → phase.flight = some dest' → Apart dest dest' :=
  fun j phase dest' ne there flights => inv.distinct i j old phase dest dest' (Ne.symm ne) was there flight flights

theorem Inv.alone {disk : Dir} {w : World} (inv : Inv disk w) {i : Nat} {old : Phase} {dest : String}
    (was : w.movers i = some old) (has : old.has = some dest) :
    ∀ j phase, j ≠ i → w.movers j = some phase → phase.has ≠ some dest :=
  fun j phase ne there has' => ne (inv.apart j i phase old dest there was has' has)

theorem Phase.flight_has (flight : phase.flight = some dest) : phase.has = some dest := by
  cases phase <;> first | exact flight | cases flight

/-- A mover in flight goes on at its names. -/
theorem Inv.goes (inv : Inv disk w) {old : Phase} (was : w.movers i = some old) (flies : old.flight = some dest)
    (is : w'.movers = (w.at i phase).movers) (log : w'.log = w.log) (about : About w w' dest)
    (flight : phase.flight = some dest → w'.Spare (partOf dest) ∧ w'.Spare (noteOf dest))
    (has : phase.flight = some dest ∧ phase.has = some dest ∨ phase.flight = none ∧ (phase.has = some dest ∨ phase.has = none))
    (own : Own w' phase) : Inv disk w' := by
  refine inv.moves is log about ?_ (inv.besides was flies) ?_ own
  · intro dest' flights
    obtain ⟨same, _⟩ | ⟨none_, _⟩ := has
    · cases flights.symm.trans same
      exact ⟨rfl, flight same⟩
    · cases none_.symm.trans flights
  · intro dest' has'
    have same : dest' = dest := by
      obtain ⟨_, its⟩ | ⟨_, its | none_⟩ := has
      · exact Option.some.inj (has'.symm.trans its)
      · exact Option.some.inj (has'.symm.trans its)
      · cases none_.symm.trans has'
    rw [same]
    exact inv.alone was (Phase.flight_has flies)

/-- A free destination that no mover in flight has, no mover has. -/
theorem Inv.unused (inv : Inv disk w) (clear : w.Clear dest) {j : Nat} (there : w.movers j = some phase) :
    phase.has ≠ some dest := by
  intro has
  cases flights : phase.flight with
  | some dest' =>
      cases has.symm.trans (Phase.flight_has flights)
      exact (clear.apart j phase dest there flights).dests rfl
  | none =>
      cases phase with
      | done m d =>
          cases has
          exact text_there (inv.lands j m dest there) clear.free
      | looking | found | refused | gone => cases has
      | _ => cases flights

/-- A mover is given a destination. -/
theorem Inv.gives (inv : Inv disk w) {m : Mover} (clear : w.Clear dest)
    (is : w'.movers = (w.at i (.given m dest)).movers) (log : w'.log = w.log) (about : About w w' dest)
    (free : w'.disk.names dest = none) (part : w'.Spare (partOf dest)) (note : w'.Spare (noteOf dest)) :
    Inv disk w' := by
  refine inv.moves is log about ?_ ?_ ?_ free
  · rintro dest' ⟨⟩
    exact ⟨rfl, part, note⟩
  · exact fun j phase dest' _ there flights => clear.apart j phase dest' there flights
  · rintro dest' ⟨⟩ j phase _ there
    exact inv.unused clear there

/-! ### Steps of a mover -/

theorem look_inv (inv : Inv disk w) (i : Nat) (meets : w.Meets (.look i)) : Inv disk (w.look i) := by
  unfold World.look
  split
  · rename_i m n is
    split
    · split
      · exact inv.stands rfl rfl
      · split
        · exact inv.stands rfl rfl
        · exact inv.stands rfl rfl
    · rename_i plain
      split
      · exact inv.stands rfl rfl
      · rename_i absent
        have clear := meets m n is (by simpa using plain) (by simpa using absent)
        exact inv.gives clear rfl rfl (About.refl w (w.at i (.given m m.name)) rfl rfl _) clear.free clear.part clear.note
  · exact inv

theorem make_inv (inv : Inv disk w) (i : Nat) (fault : Bool) (meets : w.Meets (.make i fault)) :
    Inv disk (w.make i fault) := by
  unfold World.make
  split
  · rename_i m n is
    split
    · exact inv.stands rfl rfl
    · split
      · exact inv.stands rfl rfl
      · rename_i absent
        have free : w.disk.names (partOf (candidate m.name n)) = none := by simpa using absent
        have clear := meets m n is free
        generalize candidate m.name n = dest at free clear
        have only := Disk.grow_only free (⟨[], ()⟩ : File Unit)
        have about : About w
            { w.at i (.given m dest) with
              disk := w.disk.grow (partOf dest) ⟨[], ()⟩
              temps := partOf dest :: w.temps } dest :=
          About.only (.inr (.inl rfl)) only clear.part (fun p ne => by simp [ne])
            fun _ _ => Disk.grow_plain w.disk (partOf dest) ⟨[], ()⟩
        refine inv.gives clear rfl rfl about ?_ (.inr (.head _)) ?_
        · exact (only.names dest (ne_partOf dest)).trans clear.free
        · exact clear.note.imp (only.names _ (partOf_ne_noteOf dest).symm).trans (.tail _)
  · exact inv

theorem fill_about {w : World} (w' : World) (inv : ∀ t ∈ w.temps, w.disk.Plain () t) {dest q : String} (its : Its dest q)
    (mem : q ∈ w.temps) {ino : Nat} (named : w.disk.names q = some (.file ino)) {data : Bytes}
    (disk : w'.disk = w.disk.fill ino data) (temps : w'.temps = w.temps) :
    About w w' dest ∧ w'.disk.text q = some data := by
  have lone : w.disk.Lone q ino := by
    obtain ⟨k, named', _, lone⟩ := inv q mem
    cases named.symm.trans named'
    exact lone
  refine ⟨About.only its (disk ▸ Disk.fill_only lone data) (.inr mem) (fun p _ => by rw [temps]) fun _ _ => ?_, ?_⟩
  · rw [disk]
    exact Disk.fill_plain (inv q mem) ino data
  · rw [disk]
    unfold Disk.text
    simp [Disk.fill, named]

section

variable (inv : Inv disk w)
include inv

theorem open_inv (i : Nat) (resume : Bool) (meets : w.Meets (.open_ i resume)) :
    Inv disk (w.open_ i resume) := by
  unfold World.open_
  split
  · rename_i m dest is
    have free : w.disk.names dest = none := inv.own i _ is
    obtain ⟨part, note⟩ := inv.spare i _ dest is rfl
    split
    · rename_i absent
      have only := Disk.grow_only absent (⟨[], ()⟩ : File Unit)
      have about : About w
          { w.at i (.filling m dest w.disk.next 0 false) with
            disk := w.disk.grow (partOf dest) ⟨[], ()⟩
            temps := partOf dest :: w.temps } dest :=
        About.only (.inr (.inl rfl)) only part (fun p ne => by simp [ne])
          fun _ _ => Disk.grow_plain w.disk (partOf dest) ⟨[], ()⟩
      refine inv.goes is rfl rfl rfl about (fun _ => ⟨.inr (.head _), ?_⟩) (.inl ⟨rfl, rfl⟩) ?_
      · exact note.imp (only.names _ (partOf_ne_noteOf dest).symm).trans (.tail _)
      · refine ⟨(only.names dest (ne_partOf dest)).trans free, .head _, if_pos rfl, ?_, Nat.zero_le _⟩
        unfold Disk.text
        simp [Disk.grow]
    · rename_i ino named
      have mem : partOf dest ∈ w.temps := by
        obtain absent | mem := part
        · cases absent.symm.trans named
        · exact mem
      split
      · rename_i resumed
        have resumed : resume = true ∧ m.road = .pull := by simpa using resumed
        have begins := meets m dest ino is resumed.1 named
        refine inv.goes is rfl rfl rfl (About.refl w (w.at i _) rfl rfl dest) (fun _ => ⟨part, note⟩) (.inl ⟨rfl, rfl⟩) ?_
        refine ⟨free, mem, named, ?_, begins.length_le⟩
        change w.disk.text (partOf dest) = _
        unfold Disk.text
        rw [named]
        exact congrArg some (List.prefix_iff_eq_take.mp begins)
      · obtain ⟨about, text⟩ := @fill_about w { w.at i (.filling m dest ino 0 false) with disk := w.disk.fill ino [] }
          inv.temps dest _ (.inr (.inl rfl)) mem _ named _ rfl rfl
        exact inv.goes is rfl rfl rfl about (fun _ => ⟨.inr mem, note⟩) (.inl ⟨rfl, rfl⟩)
          ⟨free, mem, named, text, Nat.zero_le _⟩
    · exact inv
  · exact inv

theorem put_inv (i k : Nat) : Inv disk (w.put i k) := by
  unfold World.put
  split
  · rename_i m dest ino offset append is
    obtain ⟨free, mem, named, text, le⟩ := inv.own i _ is
    obtain ⟨_, note⟩ := inv.spare i _ dest is rfl
    have data : (w.disk.files ino).data = m.body.take offset := by
      unfold Disk.text at text
      rw [named] at text
      exact Option.some.inj text
    have length : (m.body.take offset).length = offset := by
      rw [List.length_take]
      omega
    have at_ : (if append then (m.body.take offset).length else offset) = (m.body.take offset).length := by
      rw [length, ite_self]
    dsimp only
    rw [data, at_, splice_end]
    generalize bytes : (m.body.drop offset).take k = more
    have grown : m.body.take offset ++ more = m.body.take (offset + more.length) := by
      rw [← bytes, List.take_add]
      congr 1
      simp [List.take_eq_take_iff]
    have within : offset + more.length ≤ m.body.length := by
      rw [← bytes]
      simp
      omega
    rw [grown]
    split
    · rename_i whole
      have all : m.body.take (offset + more.length) = m.body := List.take_of_length_le whole
      obtain ⟨about, text'⟩ := @fill_about w
        { w.at i (.filled m dest) with disk := w.disk.fill ino (m.body.take (offset + more.length)) }
        inv.temps dest _ (.inr (.inl rfl)) mem _ named _ rfl rfl
      exact inv.goes is rfl rfl rfl about (fun _ => ⟨.inr mem, note⟩) (.inl ⟨rfl, rfl⟩)
        ⟨free, mem, text'.trans (congrArg some all)⟩
    · obtain ⟨about, text'⟩ := @fill_about w
        { w.at i (.filling m dest ino (offset + more.length) append) with
          disk := w.disk.fill ino (m.body.take (offset + more.length)) }
        inv.temps dest _ (.inr (.inl rfl)) mem _ named _ rfl rfl
      exact inv.goes is rfl rfl rfl about (fun _ => ⟨.inr mem, note⟩) (.inl ⟨rfl, rfl⟩)
        ⟨free, mem, named, text', within⟩
  · exact inv

/-- The phase stays, and only a name besides the destination and the part changes. -/
theorem note_inv (i : Nat) (text : Bytes) : Inv disk (w.note i text) := by
  unfold World.note
  split
  · rename_i m dest ino offset append is
    obtain ⟨free, mem, named, has, le⟩ := inv.own i _ is
    obtain ⟨part, note⟩ := inv.spare i _ dest is rfl
    have again (w' : World) (movers : w'.movers = w.movers) :
        w'.movers = (w.at i (.filling m dest ino offset append)).movers := by
      rw [movers]
      funext j
      change w.movers j = if j = i then some (Phase.filling m dest ino offset append) else w.movers j
      split
      · rename_i same
        rw [same, is]
      · rfl
    split
    · split
      · rename_i absent
        have only := Disk.grow_only absent (⟨text, ()⟩ : File Unit)
        have about : About w
            { w with
              disk := w.disk.grow (noteOf dest) ⟨text, ()⟩
              temps := noteOf dest :: w.temps } dest :=
          About.only (.inr (.inr rfl)) only note (fun p ne => by simp [ne])
            fun _ _ => Disk.grow_plain w.disk (noteOf dest) ⟨text, ()⟩
        have atPart := partOf_ne_noteOf dest
        refine inv.goes is rfl (again _ rfl) rfl about
          (fun _ => ⟨.inr (.tail _ mem), .inr (.head _)⟩) (.inl ⟨rfl, rfl⟩) ?_
        exact ⟨(only.names dest (ne_noteOf dest)).trans free, .tail _ mem,
          (only.names _ atPart).trans named, (only.text atPart).trans has, le⟩
      · rename_i ino' named'
        have mem' : noteOf dest ∈ w.temps := by
          obtain absent | mem' := note
          · cases absent.symm.trans named'
          · exact mem'
        obtain ⟨about, _⟩ := @fill_about w { w with disk := w.disk.fill ino' text } inv.temps dest _ (.inr (.inr rfl))
          mem' _ named' _ rfl rfl
        have only : w.disk.Only (w.disk.fill ino' text) (noteOf dest) := by
          obtain ⟨k, named'', _, lone⟩ := inv.temps _ mem'
          cases named'.symm.trans named''
          exact Disk.fill_only lone text
        refine inv.goes is rfl (again _ rfl) rfl about (fun _ => ⟨part, .inr mem'⟩) (.inl ⟨rfl, rfl⟩) ?_
        exact ⟨free, mem, named, (only.text (partOf_ne_noteOf dest)).trans has, le⟩
      · exact inv
    · exact inv
  · exact inv

theorem settle_inv (i : Nat) : Inv disk (w.settle i) := by
  unfold World.settle
  split
  · rename_i m dest is
    have free : w.disk.names dest = none := inv.own i _ is
    obtain ⟨part, note⟩ := inv.spare i _ dest is rfl
    have out : dest ∉ w.temps := by
      intro mem
      obtain ⟨_, named, _⟩ := inv.temps dest mem
      cases free.symm.trans named
    split
    · rw [free]
      dsimp only
      have only := Disk.grow_only free (⟨m.body, ()⟩ : File Unit)
      have about : About w { w.at i (.placed m dest) with disk := w.disk.grow dest ⟨m.body, ()⟩ } dest :=
        About.only (.inl rfl) only (.inl free) (fun _ _ => .rfl) fun _ mem => absurd mem out
      refine inv.goes is rfl rfl rfl about (fun _ => ⟨?_, ?_⟩) (.inl ⟨rfl, rfl⟩) ⟨out, ?_⟩
      · exact part.imp_left (only.names _ (ne_partOf dest).symm).trans
      · exact note.imp_left (only.names _ (ne_noteOf dest).symm).trans
      · change (w.disk.grow dest ⟨m.body, ()⟩).text dest = some m.body
        unfold Disk.text
        simp [Disk.grow]
    · exact inv
  · exact inv

theorem place_inv (i : Nat) (fault : Bool) : Inv disk (w.place i fault) := by
  unfold World.place
  split
  · rename_i m dest is
    obtain ⟨free, mem, text⟩ := inv.own i _ is
    obtain ⟨part, note⟩ := inv.spare i _ dest is rfl
    split
    · exact inv.goes is rfl rfl rfl (About.refl w (w.at i _) rfl rfl dest) (fun _ => ⟨part, note⟩) (.inl ⟨rfl, rfl⟩) trivial
    · split
      · rename_i disk' renamed
        have ne : partOf dest ≠ dest := (ne_partOf dest).symm
        have new := inv.temps _ mem
        obtain rfl := Disk.rename_lands ne new (.inl free) renamed
        have out : dest ∉ w.temps := by
          intro mem'
          obtain ⟨_, named, _⟩ := inv.temps dest mem'
          cases free.symm.trans named
        have about : About w
            { w.at i (.placed m dest) with
              disk := w.disk.move (partOf dest) dest
              temps := w.temps.filter (· ≠ partOf dest) } dest :=
          { touch := by
              intro p other
              have np : p ≠ partOf dest := fun same => other (.inr (.inl same))
              have nd : p ≠ dest := fun same => other (.inl same)
              exact ⟨by simp [Disk.move, np, nd], Disk.move_text_other np nd, by simp [np]⟩
            keep := by
              intro p there stays
              have np : p ≠ partOf dest := fun same => stays (same ▸ mem)
              have nd : p ≠ dest := fun same => there (same ▸ free)
              exact ⟨by simp [Disk.move, np, nd], Disk.move_text_other np nd, fun mem' => stays (by simpa [np] using mem')⟩
            plain := by
              intro all t mem'
              obtain ⟨was, np⟩ : t ∈ w.temps ∧ t ≠ partOf dest := by simpa using mem'
              have nd : t ≠ dest := fun same => out (same ▸ was)
              exact (Disk.move_keeps new (.inl free) np nd).plain (all t was) }
        have nn := partOf_ne_noteOf dest
        refine inv.goes is rfl rfl rfl about (fun _ => ⟨.inl (Disk.move_free _ _ _), ?_⟩) (.inl ⟨rfl, rfl⟩) ⟨?_, ?_⟩
        · exact note.imp (fun absent => by simp [Disk.move, nn.symm, (ne_noteOf dest).symm, absent])
            fun mem' => by simp [nn.symm, mem']
        · simp [out]
        · exact (Disk.move_text ne).trans text
      · exact inv
  · exact inv

theorem finish_inv (i : Nat) (wire : Bool) : Inv disk (w.finish i wire) := by
  unfold World.finish
  split
  · rename_i m dest is
    obtain ⟨out, text⟩ := inv.own i _ is
    obtain ⟨part, note⟩ := inv.spare i _ dest is rfl
    have removes {q : String} (its : Its dest q) (ne : dest ≠ q) (spare : w.Spare q) :
        Inv disk ((w.at i (.done m dest)).remove q) := by
      have only := remove_only inv.temps spare
      refine inv.goes is rfl rfl rfl (remove_about inv.temps its spare rfl rfl) nofun (.inr ⟨rfl, .inl rfl⟩) ⟨?_, ?_⟩
      · simp [World.remove, World.at, out]
      · exact (only.text ne).trans text
    have stays : Inv disk (w.at i (.done m dest)) :=
      inv.goes is rfl rfl rfl (About.refl w (w.at i _) rfl rfl dest) nofun (.inr ⟨rfl, .inl rfl⟩) ⟨out, text⟩
    split
    · split
      · exact removes (.inr (.inr rfl)) (ne_noteOf dest) note
      · exact stays
    · exact stays
    · exact removes (.inr (.inl rfl)) (ne_partOf dest) part
    · exact removes (.inr (.inl rfl)) (ne_partOf dest) part
  · exact inv

theorem fail_inv (i : Nat) : Inv disk (w.fail i) := by
  have fails {old : Phase} {m : Mover} {dest : String} (is : w.movers i = some old) (flies : old.flight = some dest) :
      Inv disk (w.at i (.failed m dest)) := by
    obtain ⟨part, note⟩ := inv.spare i _ dest is flies
    exact inv.goes is flies rfl rfl (About.refl w (w.at i _) rfl rfl dest) (fun _ => ⟨part, note⟩) (.inl ⟨rfl, rfl⟩) trivial
  unfold World.fail
  split
  · rename_i m dest is
    exact fails is rfl
  · rename_i m dest _ _ _ is
    exact fails is rfl
  · rename_i m dest is
    exact fails is rfl
  · exact inv

theorem clean_inv (i : Nat) (note : Bool) : Inv disk (w.clean i note) := by
  unfold World.clean
  split
  · rename_i m dest is
    obtain ⟨part, note'⟩ := inv.spare i _ dest is rfl
    have again : w.movers = (w.at i (.failed m dest)).movers := by
      funext j
      change w.movers j = if j = i then some (Phase.failed m dest) else w.movers j
      split
      · rename_i same
        rw [same, is]
      · rfl
    have removes {q : String} (its : Its dest q) (spare : w.Spare q) : Inv disk (w.remove q) := by
      have gone : (w.remove q).Spare q := .inl (if_pos rfl)
      have kept {p : String} (ne : p ≠ q) (was : w.Spare p) : (w.remove q).Spare p :=
        was.imp ((remove_only inv.temps spare).names p ne).trans fun mem => by simp [World.remove, ne, mem]
      refine inv.goes is rfl again rfl (remove_about inv.temps its spare rfl rfl) (fun _ => ⟨?_, ?_⟩) (.inl ⟨rfl, rfl⟩) trivial
      · by_cases here : partOf dest = q
        · exact here ▸ gone
        · exact kept here part
      · by_cases here : noteOf dest = q
        · exact here ▸ gone
        · exact kept here note'
    split
    · exact removes (.inr (.inr rfl)) note'
    · exact removes (.inr (.inl rfl)) part
  · exact inv

/-- Another program makes a file that no mover in flight has to do with. -/
theorem other_inv (p : String) (body : Bytes) (meets : w.Meets (.other p body)) :
    Inv disk (w.other p body) := by
  unfold World.other
  split
  · exact inv
  · rename_i absent
    have free : w.disk.names p = none := by simpa using absent
    have only := Disk.grow_only free (⟨body, ()⟩ : File Unit)
    have out : p ∉ w.temps := by
      intro mem
      obtain ⟨_, named, _⟩ := inv.temps p mem
      cases free.symm.trans named
    have there {q : String} (is : w.disk.names q ≠ none) : q ≠ p := fun same => is (same ▸ free)
    have texts {q : String} {data : Bytes} (text : w.disk.text q = some data) :
        (w.disk.grow p ⟨body, ()⟩).text q = some data := (only.text (there (text_there text))).trans text
    exact
      { stays := by
          intro q first
          have ne := there ((inv.stays q first).1 ▸ first)
          exact ⟨(only.names q ne).trans (inv.stays q first).1, (only.text ne).trans (inv.stays q first).2⟩
        others := by
          intro q data mem
          obtain here | before := List.mem_cons.mp mem
          · cases here
            change (w.disk.grow p ⟨body, ()⟩).text p = some body
            unfold Disk.text
            simp [Disk.grow]
          · exact texts (inv.others q data before)
        apart := inv.apart
        lands := fun j m dest is => texts (inv.lands j m dest is)
        first := inv.first
        created := by
          intro q data mem
          obtain here | before := List.mem_cons.mp mem
          · cases here
            exact out
          · exact inv.created q data before
        temps := fun t mem => (only.keeps fun same => out (same ▸ mem)).plain (inv.temps t mem)
        spare := by
          intro j phase dest is flies
          obtain ⟨_, np, nn⟩ := meets j phase dest is flies
          obtain ⟨part, note⟩ := inv.spare j phase dest is flies
          exact ⟨part.imp_left (only.names _ np.symm).trans, note.imp_left (only.names _ nn.symm).trans⟩
        distinct := inv.distinct
        own := by
          intro j phase is
          have had := inv.own j phase is
          cases phase with
          | given m dest => exact (only.names dest (meets j _ dest is rfl).1.symm).trans had
          | filling m dest ino offset append =>
              obtain ⟨nd, np, _⟩ := meets j _ dest is rfl
              obtain ⟨free', mem, named, text, le⟩ := had
              exact ⟨(only.names dest nd.symm).trans free', mem, (only.names _ np.symm).trans named, texts text, le⟩
          | filled m dest =>
              obtain ⟨nd, _, _⟩ := meets j _ dest is rfl
              obtain ⟨free', mem, text⟩ := had
              exact ⟨(only.names dest nd.symm).trans free', mem, texts text⟩
          | placed | done => exact ⟨had.1, texts had.2⟩
          | looking | found | failed | refused => trivial
          | gone => trivial }

end

/-! ### Runs -/

theorem Inv.step {disk : Dir} {w : World} {e : Event} (meets : w.Meets e) (inv : Inv disk w) : Inv disk (w.step e) := by
  cases e with
  | begin_ i m =>
      change Inv disk (w.begin_ i m)
      unfold World.begin_
      split
      · exact inv
      · exact inv.stands rfl rfl
  | look i => exact look_inv inv i meets
  | make i fault => exact make_inv inv i fault meets
  | open_ i resume => exact open_inv inv i resume meets
  | put i k => exact put_inv inv i k
  | note i text => exact note_inv inv i text
  | settle i => exact settle_inv inv i
  | place i fault => exact place_inv inv i fault
  | finish i wire => exact finish_inv inv i wire
  | fail i => exact fail_inv inv i
  | clean i note => exact clean_inv inv i note
  | quit i =>
      change Inv disk (w.quit i)
      unfold World.quit
      split
      · exact inv.stands rfl rfl
      · exact inv
  | other p body => exact other_inv inv p body meets

theorem start_inv (disk : Dir) : Inv disk (.start disk) where
  stays := fun _ _ => ⟨rfl, rfl⟩
  others := fun _ _ mem => nomatch mem
  apart := fun _ _ _ _ _ is => nomatch is
  lands := fun _ _ _ is => nomatch is
  first := fun _ _ mem => nomatch mem
  created := fun _ _ mem => nomatch mem
  temps := fun _ mem => nomatch mem
  spare := fun _ _ _ is => nomatch is
  distinct := fun _ _ _ _ _ _ _ is => nomatch is
  own := fun _ _ is => nomatch is

/-- In a run that meets the condition no landing replaces a file, no two movers have one destination, and each mover
that reports success finds its bytes. -/
theorem landings_keep_files (disk : Dir) {w : World} (run : Runs World.step World.Meets (.start disk) w) : Kept disk w :=
  (run.invariant Inv.step (start_inv disk)).toKept

/-- A directory with one file. -/
def oneName : Dir where
  names p := if p = "a.txt" then some (.file 0) else none
  files _ := ⟨[48], ()⟩
  next := 1
  bound := by
    intro p ino is
    split at is
    · cases is
      decide
    · cases is

def bring (byte : UInt8) : Mover := ⟨true, .copy, "a.txt", [byte]⟩

/-- Two movers go for the name that is taken, and then for one name beside it; the second finds the part file of the
first, and goes on to a third name. -/
def besides : List Event :=
  [.begin_ 0 (bring 49), .begin_ 1 (bring 50), .look 0, .look 1, .look 0, .look 1, .make 0 false, .make 1 false,
    .look 1, .make 1 false, .open_ 0 false, .open_ 1 false, .put 0 1, .put 1 1, .place 0 false, .place 1 false,
    .finish 0 false, .finish 1 false]

theorem bring_suffixed (all : ∀ m n, w.movers i = some (.looking m n) → m.suffixed = true) :
    w.Meets (.look i) := fun m n is plain => by
  rw [all m n is] at plain
  cases plain

theorem landings_keep_files_suffixed :
    Kept oneName (besides.foldl World.step (.start oneName)) ∧
      ((besides.foldl World.step (.start oneName)).disk.text "a.txt",
        (besides.foldl World.step (.start oneName)).disk.text "a-2.txt",
        (besides.foldl World.step (.start oneName)).disk.text "a-3.txt") = (some [48], some [49], some [50]) := by
  refine ⟨landings_keep_files oneName (Fits.runs ?_), by decide⟩
  refine ⟨trivial, trivial, bring_suffixed ?_, bring_suffixed ?_, bring_suffixed ?_, bring_suffixed ?_, ?_, ?_,
    bring_suffixed ?_, ?_, ?_, ?_, trivial, trivial, trivial, trivial, trivial, trivial, trivial⟩
  iterate 4
    rintro m n ⟨⟩
    rfl
  · rintro m n ⟨⟩ absent
    refine ⟨rfl, .inl rfl, .inl rfl, fun j phase dest there flies => ?_⟩
    rcases j with _ | _ | j <;> cases there <;> cases flies
  · rintro m n ⟨⟩ absent
    cases absent
  · rintro m n ⟨⟩
    rfl
  · rintro m n ⟨⟩ absent
    refine ⟨rfl, .inl rfl, .inl rfl, fun j phase dest there flies => ?_⟩
    rcases j with _ | _ | j <;> cases there <;> cases flies
    constructor <;> decide
  · rintro m dest ino ⟨⟩ resume
    cases resume
  · rintro m dest ino ⟨⟩ resume
    cases resume

/-- Two movers look at one name before either has a part file; the second makes its part after the first one's has
become the file, and replaces it. -/
theorem landings_replace :
    ∃ w, Runs World.step (fun _ _ => True) (.start ⟨fun _ => none, fun _ => ⟨[], ()⟩, 0, nofun⟩) w ∧
      w.movers 0 = some (.done (bring 49) "a.txt") ∧ w.movers 1 = some (.done (bring 50) "a.txt") ∧
      w.disk.text "a.txt" = some [50] ∧ ¬ Kept ⟨fun _ => none, fun _ => ⟨[], ()⟩, 0, nofun⟩ w := by
  have run := @Fits.runs _ _ World.step (fun _ _ => True) (.start ⟨fun _ => none, fun _ => ⟨[], ()⟩, 0, nofun⟩)
    [.begin_ 0 (bring 49), .look 0, .begin_ 1 (bring 50), .look 1,
      .make 0 false, .open_ 0 false, .put 0 1, .place 0 false, .finish 0 false,
      .make 1 false, .open_ 1 false, .put 1 1, .place 1 false, .finish 1 false]
    ⟨trivial, trivial, trivial, trivial, trivial, trivial, trivial, trivial, trivial, trivial, trivial, trivial, trivial,
      trivial, trivial⟩
  refine ⟨_, run, rfl, rfl, by decide, fun kept => ?_⟩
  have bytes := kept.lands 0 (bring 49) "a.txt" rfl
  revert bytes
  decide

end Khor.Landing
