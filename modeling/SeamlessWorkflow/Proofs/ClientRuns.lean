import Mathlib.Algebra.Order.Group.Int
import SeamlessWorkflow.Share.Client

/-!
# The browser client never goes back

Every message, reply and edit changes the entries one by one, and each change that takes a marker over has
tested it against the entry's. The values that have been read carry the connection they were read in, and
while it lasts none of them has a marker above the entry's.
-/

namespace SeamlessWorkflow

namespace Browser

/-! ## Changes of an entry -/

/-- A change that leaves the value and the edits alone; only a restart of the server lowers the marker. -/
structure Entry.Installs (restarted : Bool) (old new : Entry) : Prop where
  marker : restarted = false → old.marker ≤ new.marker
  value : new.value = old.value
  origin : new.origin = old.origin
  localVersion : new.localVersion = old.localVersion
  generation : old.readGeneration ≤ new.readGeneration

/-- A change within a connection: a value is an edit of the page, or has been read at a marker that is
not above the entry's. -/
structure Entry.Evolves (connection : Nat) (old new : Entry) : Prop where
  marker : old.marker ≤ new.marker
  localVersion : old.localVersion ≤ new.localVersion
  generation : old.readGeneration ≤ new.readGeneration
  origin : new.origin = old.origin ∨ (∃ k ≤ new.localVersion, new.origin = .edit k) ∨
    ∃ m, new.origin = .read connection m ∧ ∀ x ∈ m, x ≤ new.marker

theorem Entry.Installs.refl {restarted : Bool} (entry : Entry) : entry.Installs restarted entry :=
  ⟨fun _ => le_refl _, rfl, rfl, rfl, le_refl _⟩

theorem Entry.Installs.evolves {a b : Entry} (h : a.Installs false b) (connection : Nat) :
    a.Evolves connection b :=
  ⟨h.marker rfl, h.localVersion.ge, h.generation, Or.inl h.origin⟩

theorem Entry.Evolves.refl (connection : Nat) (entry : Entry) : entry.Evolves connection entry :=
  (Entry.Installs.refl entry).evolves connection

/-- A change of nothing that the client compares. -/
theorem Entry.Evolves.of_eq {connection : Nat} {old new : Entry} (hmarker : new.marker = old.marker)
    (hversion : new.localVersion = old.localVersion)
    (hgeneration : new.readGeneration = old.readGeneration) (horigin : new.origin = old.origin) :
    old.Evolves connection new :=
  ⟨hmarker.ge, hversion.ge, hgeneration.ge, Or.inl horigin⟩

theorem installs_install (entry : Entry) {reconnect restarted : Bool}
    (h : restarted = true → reconnect = true) (metadata : Metadata) :
    entry.Installs restarted (entry.install reconnect restarted false metadata).1 := by
  unfold Entry.install
  dsimp only
  cases reconnect with
  | false =>
    obtain rfl : restarted = false := by
      by_contra hne
      exact absurd (h (by simpa using hne)) (by decide)
    by_cases hlower : metadata.marker.getD entry.marker < entry.marker
    · simp only [hlower, decide_true, Bool.not_false, Bool.and_self, if_true]
      exact .refl entry
    · simp only [hlower, decide_false, Bool.not_false, Bool.and_true, Bool.and_false,
        Bool.false_eq_true, if_false]
      exact ⟨fun _ => not_lt.mp hlower, rfl, rfl, rfl, le_refl _⟩
  | true =>
    cases restarted with
    | true =>
      simp only [Bool.not_true, Bool.and_false, Bool.and_self, Bool.false_eq_true, if_false, if_true]
      exact ⟨fun hr => absurd hr (by decide), rfl, rfl, rfl, Nat.le_succ _⟩
    | false =>
      by_cases hlower : metadata.marker.getD entry.marker < entry.marker
      · simp only [hlower, decide_true, Bool.not_false, Bool.not_true, Bool.and_self, Bool.and_false,
          Bool.false_and, Bool.false_eq_true, if_false, if_true]
        exact ⟨fun _ => le_refl _, rfl, rfl, rfl, le_refl _⟩
      · simp only [hlower, decide_false, Bool.not_false, Bool.not_true, Bool.and_true, Bool.and_false,
          Bool.false_eq_true, if_false, if_true]
        exact ⟨fun _ => not_lt.mp hlower, rfl, rfl, rfl, le_refl _⟩

/-- A new entry has no value. -/
theorem origin_install (entry : Entry) (reconnect restarted created : Bool) (metadata : Metadata) :
    (entry.install reconnect restarted created metadata).1.origin = entry.origin := by
  unfold Entry.install
  dsimp only
  split_ifs <;> rfl

theorem generation_install (entry : Entry) (reconnect restarted created : Bool)
    (metadata : Metadata) : entry.readGeneration ≤
      (entry.install reconnect restarted created metadata).1.readGeneration := by
  unfold Entry.install
  dsimp only
  split_ifs <;> first | exact le_refl _ | exact Nat.le_succ _

theorem evolves_updateMetadata (connection : Nat) (entry : Entry)
    (checksum : Option (Option String)) (marker : Option Int) :
    entry.Evolves connection (entry.updateMetadata checksum marker).1 := by
  unfold Entry.updateMetadata
  split
  · exact .refl connection entry
  · rename_i marker
    split
    · exact .refl connection entry
    · rename_i hlower
      exact ⟨not_lt.mp hlower, le_refl _, le_refl _, Or.inl rfl⟩

/-- The value that is read carries a marker that is not above the entry's. -/
theorem evolves_receiveValue (connection : Nat) (entry : Entry) (read : Read) (reply : ReadReply)
    (value : Value) : entry.Evolves connection (entry.receiveValue connection read reply value) := by
  unfold Entry.receiveValue
  dsimp only
  split
  · exact .refl connection entry
  · cases hmarker : reply.marker with
    | none =>
      refine ⟨le_refl _, le_refl _, le_refl _, Or.inr (Or.inr ⟨none, rfl, fun x hx => ?_⟩)⟩
      cases hx
    | some marker =>
      dsimp only
      split
      · exact .refl connection entry
      · rename_i hstale
        rw [not_or, not_lt, not_lt] at hstale
        refine ⟨hstale.2, le_refl _, le_refl _, Or.inr (Or.inr ⟨some marker, rfl, fun x hx => ?_⟩)⟩
        obtain rfl := Option.some.inj hx
        exact le_refl _

theorem evolves_receiveAccepted (connection : Nat) (entry : Entry) (operation : Operation)
    (requestMarker : Int) (requestServerRevision : Nat) (marker : Option Int)
    (checksum : Option String) : entry.Evolves connection
      (entry.receiveAccepted operation requestMarker requestServerRevision marker checksum) := by
  unfold Entry.receiveAccepted
  dsimp only
  split
  · rename_i hcurrent
    have hedit : ∀ {new : Entry}, entry.marker ≤ new.marker →
        new.localVersion = entry.localVersion → new.readGeneration = entry.readGeneration →
          (new.origin = entry.origin ∨ new.origin = .edit entry.localVersion) →
            entry.Evolves connection new := by
      intro new hmarker hversion hgeneration horigin
      refine ⟨hmarker, hversion.ge, hgeneration.ge, horigin.imp_right fun hedit => Or.inl ?_⟩
      exact ⟨entry.localVersion, hversion.ge, hedit⟩
    cases marker with
    | none =>
      dsimp only
      split
      · rename_i hnewest
        exact hedit (le_refl _) rfl rfl (Or.inr (by rw [hnewest]))
      · exact hedit (le_refl _) rfl rfl (Or.inl rfl)
    | some marker =>
      have hmarker : entry.marker ≤ marker := hcurrent.2 marker rfl
      dsimp only
      split
      · rename_i hnewest
        exact hedit hmarker rfl rfl (Or.inr (by rw [hnewest]))
      · exact hedit hmarker rfl rfl (Or.inl rfl)
  · exact .of_eq rfl rfl rfl rfl

theorem evolves_receiveConflict (connection : Nat) (entry : Entry) (requestServerRevision : Nat)
    (marker : Option Int) (checksum : Option String) : entry.Evolves connection
      (entry.receiveConflict requestServerRevision marker checksum) := by
  unfold Entry.receiveConflict
  dsimp only
  cases marker with
  | none => exact .of_eq rfl rfl rfl rfl
  | some marker =>
    dsimp only
    split
    · rename_i hcurrent
      exact ⟨hcurrent.2, le_refl _, le_refl _, Or.inl rfl⟩
    · exact .of_eq rfl rfl rfl rfl

/-! ## Changes of the client -/

theorem lookup_modify (s : Client) (object : Nat) (f : Entry → Entry) (other : Nat) :
    (s.modify object f).objects[other]? =
      (s.objects[other]?).map fun entry => if object = other then f entry else entry := by
  unfold Client.modify
  rw [List.getElem?_modify]
  by_cases h : object = other <;> simp [h]

theorem lookup_modify_self {s : Client} {object : Nat} {f : Entry → Entry} {entry : Entry}
    (h : s.objects[object]? = some entry) : (s.modify object f).objects[object]? = some (f entry) := by
  rw [lookup_modify, h, Option.map_some, if_pos rfl]

/-- No marker of an entry object is lower than before. -/
def Client.Rises (s next : Client) : Prop :=
  ∀ (object : Nat) (entry : Entry), s.objects[object]? = some entry →
    ∃ later : Entry, next.objects[object]? = some later ∧ entry.marker ≤ later.marker

theorem Client.Rises.refl (s : Client) : s.Rises s := fun _ entry h => ⟨entry, h, le_refl _⟩

theorem Client.Rises.trans {a b c : Client} (h : a.Rises b) (h' : b.Rises c) : a.Rises c := by
  intro object entry hentry
  obtain ⟨later, hlater, hle⟩ := h object entry hentry
  obtain ⟨last, hlast, hle'⟩ := h' object later hlater
  exact ⟨last, hlast, hle.trans hle'⟩

theorem Client.Rises.of_objects {s next : Client} (h : next.objects = s.objects) : s.Rises next :=
  fun _ entry hentry => ⟨entry, h ▸ hentry, le_refl _⟩

theorem rises_modify {s : Client} {object : Nat} {f : Entry → Entry}
    (hf : ∀ entry, s.objects[object]? = some entry → entry.marker ≤ (f entry).marker) :
    s.Rises (s.modify object f) := by
  intro other entry hentry
  rw [lookup_modify, hentry, Option.map_some]
  refine ⟨_, rfl, ?_⟩
  split
  · rename_i heq
    subst heq
    exact hf entry hentry
  · exact le_refl _

/-- Something holds of every entry object, every GET that has been started has a generation that its
entry has reached, and those without a reply are among them. -/
structure Client.Holds (P : Entry → Prop) (s : Client) : Prop where
  entries : ∀ (object : Nat) (entry : Entry), s.objects[object]? = some entry → P entry
  reads : ∀ read ∈ s.reads, ∃ entry : Entry, s.objects[read.object]? = some entry ∧
    read.generation ≤ entry.readGeneration

section Holds

variable {P : Entry → Prop} {s : Client}

theorem Client.Holds.congr {next : Client} (h : s.Holds P) (hobjects : next.objects = s.objects)
    (hreads : next.reads = s.reads) : next.Holds P :=
  ⟨fun object entry hentry => h.entries object entry (hobjects ▸ hentry),
    fun read hread => hobjects ▸ h.reads read (hreads ▸ hread)⟩

theorem Client.Holds.mono {Q : Entry → Prop} (h : s.Holds P) (hPQ : ∀ entry, P entry → Q entry) :
    s.Holds Q :=
  ⟨fun object entry hentry => hPQ entry (h.entries object entry hentry), h.reads⟩

theorem holds_modify {object : Nat} {f : Entry → Entry} (h : s.Holds P)
    (hf : ∀ entry, s.objects[object]? = some entry → P entry →
      P (f entry) ∧ entry.readGeneration ≤ (f entry).readGeneration) :
    (s.modify object f).Holds P where
  entries other later hlater := by
    rw [lookup_modify] at hlater
    obtain ⟨entry, hentry, rfl⟩ := Option.map_eq_some_iff.mp hlater
    split
    · rename_i heq
      subst heq
      exact (hf entry hentry (h.entries _ entry hentry)).1
    · exact h.entries other entry hentry
  reads read hread := by
    obtain ⟨entry, hentry, hle⟩ := h.reads read hread
    rw [lookup_modify, hentry, Option.map_some]
    refine ⟨_, rfl, ?_⟩
    split
    · rename_i heq
      subst heq
      exact hle.trans (hf entry hentry (h.entries _ entry hentry)).2
    · exact hle

/-- The read that is started is its entry's newest one. -/
theorem holds_fetchValue {object : Nat} {force : Bool} (h : s.Holds P)
    (hP : ∀ entry : Entry, P entry → P { entry with readGeneration := entry.readGeneration + 1 }) :
    (s.fetchValue object force).Holds P := by
  unfold Client.fetchValue
  split
  · exact h
  · rename_i entry hentry
    split
    · exact h
    · have hmodified : (s.modify object fun entry => { entry with
          readGeneration := entry.readGeneration + 1 }).Holds P :=
        holds_modify h fun entry _ hp => ⟨hP entry hp, Nat.le_succ _⟩
      refine ⟨hmodified.entries, fun read hread => ?_⟩
      rcases List.mem_append.mp hread with hold | hnew
      · exact hmodified.reads read hold
      · rw [List.mem_singleton.mp hnew]
        exact ⟨_, lookup_modify_self hentry, le_refl _⟩

theorem rises_fetchValue (object : Nat) (force : Bool) : s.Rises (s.fetchValue object force) := by
  unfold Client.fetchValue
  split
  · exact .refl s
  · split
    · exact .refl s
    · exact Client.Rises.trans (b := s.modify object fun entry => { entry with
        readGeneration := entry.readGeneration + 1 }) (rises_modify fun _ _ => le_refl _)
        (.of_objects rfl)

end Holds

/-! ## Snapshots -/

section Snapshots

variable {P : Entry → Prop} {s : Client} {reconnect restarted : Bool}

/-- A record is installed in the entry of its key, or in a new one. -/
theorem installRecord_cases (s : Client) (record : String × Metadata) :
    (∃ object, s.entries.lookup record.1 = some object ∧ s.objects[object]? = none ∧
      s.installRecord reconnect restarted record = s) ∨
    ∃ (base : Client) (object : Nat) (entry : Entry) (created : Bool) (read : Option Bool),
      base.objects[object]? = some entry ∧ base.reads = s.reads ∧
      ((created = false ∧ base = s) ∨
        created = true ∧ base.objects = s.objects ++ [makeEntry record.1 record.2] ∧
          entry = makeEntry record.1 record.2 ∧ object = s.objects.length) ∧
      s.installRecord reconnect restarted record =
        match read with
        | some force => (base.modify object fun _ =>
            (entry.install reconnect restarted created record.2).1).fetchValue object force
        | none => base.modify object fun _ =>
            (entry.install reconnect restarted created record.2).1 := by
  obtain ⟨key, metadata⟩ := record
  unfold Client.installRecord
  dsimp only
  cases hkey : s.entries.lookup key with
  | some object =>
    dsimp only
    cases hentry : s.objects[object]? with
    | none => exact Or.inl ⟨object, rfl, hentry, rfl⟩
    | some entry =>
      refine Or.inr ⟨s, object, entry, false, (entry.install reconnect restarted false metadata).2,
        hentry, rfl, Or.inl ⟨rfl, rfl⟩, ?_⟩
      rfl
  | none =>
    dsimp only
    have hentry : (s.objects ++ [makeEntry key metadata])[s.objects.length]? =
        some (makeEntry key metadata) := by simp
    rw [hentry]
    refine Or.inr ⟨{ s with
      objects := s.objects ++ [makeEntry key metadata]
      entries := s.entries ++ [(key, s.objects.length)] }, s.objects.length, makeEntry key metadata, true,
      ((makeEntry key metadata).install reconnect restarted true metadata).2, hentry, rfl,
      Or.inr ⟨rfl, rfl, rfl, rfl⟩, rfl⟩

theorem holds_installRecord (h : s.Holds P) (hreconnect : restarted = true → reconnect = true)
    (hinstalls : ∀ old new : Entry, old.Installs restarted new → P old → P new)
    (hnew : ∀ entry : Entry, entry.origin = .none → P entry) (record : String × Metadata) :
    (s.installRecord reconnect restarted record).Holds P := by
  have hfetch : ∀ entry : Entry, P entry →
      P { entry with readGeneration := entry.readGeneration + 1 } := fun entry hp =>
    hinstalls entry _ ⟨fun _ => le_refl _, rfl, rfl, rfl, Nat.le_succ _⟩ hp
  rcases @installRecord_cases reconnect restarted s record with
    ⟨_, _, _, heq⟩ | ⟨base, object, entry, created, read, hentry, hreads, hbase, heq⟩
  · rw [heq]
    exact h
  · have hinstalled : (base.modify object fun _ =>
        (entry.install reconnect restarted created record.2).1).Holds P := by
      rcases hbase with ⟨rfl, rfl⟩ | ⟨rfl, hobjects, rfl, rfl⟩
      · refine holds_modify h fun entry' hentry' hp => ?_
        obtain rfl := Option.some.inj (hentry.symm.trans hentry')
        exact ⟨hinstalls entry _ (installs_install entry hreconnect record.2) hp,
          generation_install ..⟩
      · have hgrown : base.Holds P := by
          refine ⟨fun other later hlater => ?_, fun read hread => ?_⟩
          · rw [hobjects] at hlater
            rcases List.mem_append.mp (List.mem_of_getElem? hlater) with hold | hlast
            · obtain ⟨i, hi⟩ := List.getElem?_of_mem hold
              exact h.entries i later hi
            · rw [List.mem_singleton.mp hlast]
              exact hnew _ rfl
          · obtain ⟨entry, hold, hle⟩ := h.reads read (hreads ▸ hread)
            refine ⟨entry, ?_, hle⟩
            rw [hobjects, List.getElem?_append_left (List.getElem?_eq_some_iff.mp hold).1]
            exact hold
        refine holds_modify hgrown fun entry' hentry' _ => ?_
        obtain rfl := Option.some.inj (hentry.symm.trans hentry')
        exact ⟨hnew _ (origin_install ..), generation_install ..⟩
    rw [heq]
    split
    · exact holds_fetchValue hinstalled hfetch
    · exact hinstalled

theorem rises_installRecord (hreconnect : restarted = true → reconnect = true)
    (hrestarted : restarted = false) (record : String × Metadata) :
    s.Rises (s.installRecord reconnect restarted record) := by
  rcases @installRecord_cases reconnect restarted s record with
    ⟨_, _, _, heq⟩ | ⟨base, object, entry, created, read, hentry, hreads, hbase, heq⟩
  · rw [heq]
    exact .refl s
  · have hinstalled : s.Rises (base.modify object fun _ =>
        (entry.install reconnect restarted created record.2).1) := by
      rcases hbase with ⟨rfl, rfl⟩ | ⟨rfl, hobjects, rfl, rfl⟩
      · refine rises_modify fun entry' hentry' => ?_
        obtain rfl := Option.some.inj (hentry.symm.trans hentry')
        exact (installs_install entry hreconnect record.2).marker hrestarted
      · intro other entry hold
        have hlt : other < s.objects.length := (List.getElem?_eq_some_iff.mp hold).1
        refine ⟨entry, ?_, le_refl _⟩
        rw [lookup_modify, hobjects, List.getElem?_append_left hlt, hold, Option.map_some,
          if_neg (Nat.ne_of_gt hlt)]
    rw [heq]
    split
    · exact hinstalled.trans (rises_fetchValue _ _)
    · exact hinstalled

theorem holds_installRecords (hreconnect : restarted = true → reconnect = true)
    (hinstalls : ∀ old new : Entry, old.Installs restarted new → P old → P new)
    (hnew : ∀ entry : Entry, entry.origin = .none → P entry) (shareMap : List (String × Metadata)) :
    ∀ {s : Client}, s.Holds P →
      (shareMap.foldl (Client.installRecord reconnect restarted) s).Holds P := by
  induction shareMap with
  | nil => exact fun h => h
  | cons record shareMap ih =>
    exact fun h => ih (holds_installRecord h hreconnect hinstalls hnew record)

theorem rises_installRecords (hreconnect : restarted = true → reconnect = true)
    (hrestarted : restarted = false) (shareMap : List (String × Metadata)) :
    ∀ s : Client, s.Rises (shareMap.foldl (Client.installRecord reconnect restarted) s) := by
  induction shareMap with
  | nil => exact .refl
  | cons record shareMap ih =>
    exact fun s => (rises_installRecord hreconnect hrestarted record).trans (ih _)

end Snapshots

/-! ## The invariant -/

/-- The edit that a value is from has been made, and the marker it has been read at in this connection is
not above the entry's. -/
structure Entry.Sound (connection : Nat) (entry : Entry) : Prop where
  edits : ∀ k, entry.origin = .edit k → k ≤ entry.localVersion
  reads : ∀ c m, entry.origin = .read c m →
    c ≤ connection ∧ (c = connection → ∀ x ∈ m, x ≤ entry.marker)

theorem Entry.Sound.evolves {connection : Nat} {old new : Entry} (h : old.Sound connection)
    (he : old.Evolves connection new) : new.Sound connection := by
  rcases he.origin with heq | ⟨k, hk, heq⟩ | ⟨m, heq, hm⟩
  · refine ⟨fun k hk => (h.edits k (heq ▸ hk)).trans he.localVersion, fun c m hc => ?_⟩
    obtain ⟨hle, hread⟩ := h.reads c m (heq ▸ hc)
    exact ⟨hle, fun hcurrent x hx => (hread hcurrent x hx).trans he.marker⟩
  · refine ⟨fun k' hk' => ?_, fun c m hc => ?_⟩
    · obtain rfl := Origin.edit.inj (heq.symm.trans hk')
      exact hk
    · exact nomatch heq.symm.trans hc
  · refine ⟨fun k hk => ?_, fun c m' hc => ?_⟩
    · exact nomatch heq.symm.trans hk
    · obtain ⟨rfl, rfl⟩ := Origin.read.inj (heq.symm.trans hc)
      exact ⟨le_refl _, fun _ => hm⟩

theorem Entry.Sound.new (connection : Nat) {entry : Entry} (h : entry.origin = .none) :
    entry.Sound connection :=
  ⟨fun _ hk => (nomatch h.symm.trans hk), fun _ _ hc => (nomatch h.symm.trans hc)⟩

/-- The invariant of a client. -/
def Client.Intact (s : Client) : Prop := s.Holds (Entry.Sound s.connection)

theorem intact_modify {s : Client} {object : Nat} {f : Entry → Entry} (h : s.Intact)
    (hf : ∀ entry, s.objects[object]? = some entry → entry.Evolves s.connection (f entry)) :
    (s.modify object f).Intact :=
  holds_modify h fun entry hentry hsound =>
    ⟨hsound.evolves (hf entry hentry), (hf entry hentry).generation⟩

theorem intact_fetchValue {s : Client} (h : s.Intact) (object : Nat) (force : Bool) :
    (s.fetchValue object force).Intact := by
  have hconnection : (s.fetchValue object force).connection = s.connection := by
    unfold Client.fetchValue
    split
    · rfl
    · split <;> rfl
  unfold Client.Intact
  rw [hconnection]
  refine holds_fetchValue h fun entry hsound => hsound.evolves ?_
  exact ⟨le_refl _, le_refl _, Nat.le_succ _, Or.inl rfl⟩

/-- A snapshot that starts another connection leaves the values of the earlier one, whatever becomes of
the markers. -/
theorem intact_installSnapshot {s : Client} (h : s.Intact) (shareMap : List (String × Metadata)) :
    (s.installSnapshot shareMap).Intact := by
  unfold Client.Intact Client.installSnapshot
  dsimp only
  cases s.adoptRestartSnapshot with
  | false =>
    refine Client.Holds.congr (s := shareMap.foldl (Client.installRecord false false) _) ?_ rfl rfl
    refine holds_installRecords (fun hr => hr) (fun old new hi hp => ?_) (fun entry hnone => ?_) shareMap
      (h.congr rfl rfl)
    · exact hp.evolves (hi.evolves _)
    · exact .new _ hnone
  | true =>
    -- every value is from an earlier connection than the one that starts
    have hearlier : s.Holds fun entry => (∀ k, entry.origin = .edit k → k ≤ entry.localVersion) ∧
        ∀ c m, entry.origin = .read c m → c ≤ s.connection :=
      h.mono fun entry hsound => ⟨hsound.edits, fun c m hc => (hsound.reads c m hc).1⟩
    have hkept := @Client.Holds.congr _ _ { s with
      adoptRestartSnapshot := true
      entries := s.entries.filter fun entry => (shareMap.map Prod.fst).contains entry.1 } hearlier rfl rfl
    generalize (true && (s.inspectRestartSnapshot shareMap).1) = restarted
    refine Client.Holds.congr (s := shareMap.foldl (Client.installRecord true restarted) _) ?_ rfl rfl
    refine (holds_installRecords (fun _ => rfl) (fun old new hi hp => ?_) (fun entry hnone => ?_)
      shareMap hkept).mono fun entry hp => ?_
    · refine ⟨fun k hk => ?_, fun c m hc => hp.2 c m (hi.origin ▸ hc)⟩
      rw [hi.localVersion]
      exact hp.1 k (hi.origin ▸ hk)
    · exact ⟨fun _ hk => (nomatch hnone.symm.trans hk), fun _ _ hc => (nomatch hnone.symm.trans hc)⟩
    · refine ⟨hp.1, fun c m hc => ?_⟩
      have hle : c ≤ s.connection := hp.2 c m hc
      show c ≤ s.connection + 1 ∧ (c = s.connection + 1 → _)
      exact ⟨by omega, fun hnow => absurd hnow (by omega)⟩

theorem intact_writeNext {s : Client} (h : s.Intact) (object : Nat) : (s.writeNext object).Intact := by
  refine intact_modify h fun entry _ => ?_
  split
  · split <;> exact .of_eq rfl rfl rfl rfl
  · exact .of_eq rfl rfl rfl rfl

theorem rises_writeNext (s : Client) (object : Nat) : s.Rises (s.writeNext object) := by
  refine rises_modify fun entry _ => ?_
  split
  · split <;> exact le_refl _
  · exact le_refl _

/-- What an event other than a snapshot that starts a connection makes of the invariant and of the
markers. -/
structure Client.Keeps (s next : Client) : Prop where
  intact : s.Intact → next.Intact
  rises : s.Rises next

theorem Client.Keeps.refl (s : Client) : s.Keeps s := ⟨fun h => h, .refl s⟩

theorem Client.Keeps.trans {a b c : Client} (h : a.Keeps b) (h' : b.Keeps c) : a.Keeps c :=
  ⟨fun hi => h'.intact (h.intact hi), h.rises.trans h'.rises⟩

theorem keeps_modify {s : Client} {object : Nat} {f : Entry → Entry}
    (hf : ∀ entry : Entry, s.objects[object]? = some entry → entry.Evolves s.connection (f entry)) :
    s.Keeps (s.modify object f) :=
  ⟨fun h => intact_modify h hf, rises_modify fun entry hentry => (hf entry hentry).marker⟩

theorem keeps_fetchValue (s : Client) (object : Nat) (force : Bool) :
    s.Keeps (s.fetchValue object force) :=
  ⟨fun h => intact_fetchValue h object force, rises_fetchValue object force⟩

theorem keeps_writeNext (s : Client) (object : Nat) : s.Keeps (s.writeNext object) :=
  ⟨fun h => intact_writeNext h object, rises_writeNext s object⟩

/-- A change of nothing but the lists of what is still to come. -/
theorem keeps_of_eq {s next : Client} (hobjects : next.objects = s.objects)
    (hreads : next.reads = s.reads) (hconnection : next.connection = s.connection) : s.Keeps next :=
  ⟨fun h => by
    unfold Client.Intact
    rw [hconnection]
    exact h.congr hobjects hreads, .of_objects hobjects⟩

theorem keeps_step {s next : Client} {event : Event} (hs : s.step event = some next) :
    s.Keeps next ∨ ∃ shareMap, event = .snapshot shareMap ∧ next = s.installSnapshot shareMap := by
  cases event with
  | snapshot shareMap => exact Or.inr ⟨shareMap, rfl, (Option.some.inj hs).symm⟩
  | update key checksum marker =>
    left
    obtain rfl := Option.some.inj hs
    unfold Client.receiveUpdate
    split
    · exact .refl s
    · split
      · exact .refl s
      · rename_i object _ _ entry hentry
        have hupdated : s.Keeps (s.modify object fun _ =>
            (entry.updateMetadata checksum marker).1) := by
          refine keeps_modify fun entry' hentry' => ?_
          obtain rfl := Option.some.inj (hentry.symm.trans hentry')
          exact evolves_updateMetadata ..
        dsimp only
        split
        · exact hupdated.trans (keeps_fetchValue _ _ _)
        · exact hupdated
  | readReply read reply =>
    left
    obtain ⟨-, hs⟩ := Option.ite_none_right_eq_some.mp hs
    obtain rfl := Option.some.inj hs
    refine Client.Keeps.trans (b := { s with unanswered := s.unanswered.erase read })
      (keeps_of_eq rfl rfl rfl) ?_
    unfold Client.receiveRead
    split
    · exact .refl _
    · split
      · exact keeps_modify fun entry _ => evolves_receiveValue ..
      · exact .refl _
  | writeHeaders object =>
    left
    obtain rfl := Option.some.inj hs
    unfold Client.receiveHeaders
    split
    · exact .refl s
    · split
      · split
        · exact keeps_modify fun entry _ => .of_eq rfl rfl rfl rfl
        · exact keeps_writeNext s object
      · exact .refl s
  | writeReply object reply =>
    left
    obtain rfl := Option.some.inj hs
    unfold Client.receiveWrite
    split
    · exact .refl s
    · split
      · exact keeps_modify fun entry _ => .of_eq rfl rfl rfl rfl
      · exact keeps_modify fun entry _ => .of_eq rfl rfl rfl rfl
      · exact keeps_modify fun entry _ => .of_eq rfl rfl rfl rfl
      · exact keeps_modify fun entry _ => evolves_receiveAccepted ..
      · exact (keeps_modify fun entry _ => evolves_receiveConflict ..).trans (keeps_fetchValue _ _ _)
      · exact .refl s
  | writeNext object =>
    left
    unfold Client.step at hs
    dsimp only at hs
    split at hs
    · exact Option.some.inj hs ▸ keeps_writeNext s object
    · exact Option.some.inj hs ▸ keeps_writeNext s object
    · cases hs
  | edit object value =>
    left
    obtain rfl := Option.some.inj hs
    unfold Client.setValue
    split
    · exact .refl s
    · split
      · exact .refl s
      · refine Client.Keeps.trans (b := s.modify object fun entry => { entry with
            readGeneration := entry.readGeneration + 1
            localVersion := entry.localVersion + 1
            value := some value
            origin := .edit (entry.localVersion + 1) }) (keeps_modify fun entry _ => ?_)
          (keeps_of_eq rfl rfl rfl)
        exact ⟨le_refl _, Nat.le_succ _, Nat.le_succ _, Or.inr (Or.inl ⟨_, le_refl _, rfl⟩)⟩
  | edited object operation =>
    left
    obtain ⟨-, hs⟩ := Option.ite_none_right_eq_some.mp hs
    obtain rfl := Option.some.inj hs
    unfold Client.queueEdit
    dsimp only
    have hqueued : s.Keeps { s.modify object fun entry => { entry with
        pending := some operation } with edits := s.edits.erase (object, operation) } := by
      refine Client.Keeps.trans (b := s.modify object fun entry => { entry with
        pending := some operation }) (keeps_modify fun entry _ => ?_) (keeps_of_eq rfl rfl rfl)
      exact .of_eq rfl rfl rfl rfl
    split
    · exact hqueued
    · split
      · exact hqueued.trans (keeps_writeNext _ _)
      · exact hqueued
  | setAutoRead object autoRead =>
    left
    obtain rfl := Option.some.inj hs
    exact keeps_modify fun entry _ => .of_eq rfl rfl rfl rfl
  | reconnect =>
    left
    obtain rfl := Option.some.inj hs
    exact keeps_of_eq rfl rfl rfl

theorem intact_step {s next : Client} {event : Event} (h : s.Intact)
    (hs : s.step event = some next) : next.Intact := by
  rcases keeps_step hs with hkeeps | ⟨shareMap, -, rfl⟩
  · exact hkeeps.intact h
  · exact intact_installSnapshot h shareMap

/-- Within a connection no event lowers a marker. -/
theorem rises_step {s next : Client} {event : Event} (hc : s.adoptRestartSnapshot = false)
    (hs : s.step event = some next) : s.Rises next := by
  rcases keeps_step hs with hkeeps | ⟨shareMap, -, rfl⟩
  · exact hkeeps.rises
  · unfold Client.installSnapshot
    dsimp only
    rw [hc]
    have hrises := @rises_installRecords false _ (fun hr => hr) rfl shareMap { s with
      adoptRestartSnapshot := false
      entries := s.entries.filter fun entry => (shareMap.map Prod.fst).contains entry.1 }
    intro object entry hentry
    exact hrises object entry hentry

/-! ## Replies -/

theorem value_fetchValue {s : Client} (object : Nat) (force : Bool) {other : Nat} {entry : Entry}
    (h : s.objects[other]? = some entry) : ∃ later : Entry,
      (s.fetchValue object force).objects[other]? = some later ∧ later.value = entry.value := by
  unfold Client.fetchValue
  split
  · exact ⟨entry, h, rfl⟩
  · split
    · exact ⟨entry, h, rfl⟩
    · show ∃ later : Entry, (s.modify object _).objects[other]? = some later ∧ _
      rw [lookup_modify, h, Option.map_some]
      refine ⟨_, rfl, ?_⟩
      split <;> rfl

/-- A later GET has been started for the entry. -/
def Client.Superseded (s : Client) (read : Read) : Prop :=
  ∃ other ∈ s.reads, other.object = read.object ∧ read.generation < other.generation

/-- The value is from a newer edit than the one that has been written. -/
def Entry.EditedAfter (entry : Entry) (operation : Operation) : Prop :=
  ∃ k, operation.revision < k ∧ entry.origin = .edit k

/-- The value has been read in the connection at a higher marker. -/
def Entry.ReadAbove (entry : Entry) (connection : Nat) (marker : Int) : Prop :=
  ∃ m, marker < m ∧ entry.origin = .read connection (some m)

/-- What an accepted PUT replaces is neither a newer edit nor a value that has been read at a newer
marker. -/
theorem receiveAccepted_value {connection : Nat} {entry : Entry} (h : entry.Sound connection)
    (operation : Operation) (requestMarker : Int) (requestServerRevision : Nat)
    (marker : Option Int) (checksum : Option String) :
    (entry.receiveAccepted operation requestMarker requestServerRevision marker checksum).value =
        entry.value ∨
      (entry.receiveAccepted operation requestMarker requestServerRevision marker checksum).value =
          some operation.value ∧
        ¬ entry.EditedAfter operation ∧ ∀ p ∈ marker, ¬ entry.ReadAbove connection p := by
  unfold Entry.receiveAccepted
  dsimp only
  split
  · rename_i hcurrent
    split
    · rename_i hnewest
      refine Or.inr ⟨?_, ?_, ?_⟩
      · split <;> rfl
      · rintro ⟨k, hk, horigin⟩
        have hle := h.edits k horigin
        omega
      · rintro p hp ⟨m, hm, horigin⟩
        have hle := (h.reads connection _ horigin).2 rfl m rfl
        have hcur := hcurrent.2 p hp
        omega
    · left
      split <;> rfl
  · exact Or.inl rfl

/-- The client never goes back: within a connection no marker falls, a reply to a GET that is not the
newest one or carries an older marker leaves the value alone, and what the reply to the PUT that the
entry is waiting for replaces is neither an edit newer than the one that this PUT has written nor a
value that has been read at a newer marker. -/
structure Client.NeverGoesBack (s : Client) : Prop where
  markers : ∀ later, Transition.Reachable Client.step s
    (fun s _ => s.adoptRestartSnapshot = false) later → s.Rises later
  reads : ∀ read reply next, s.step (.readReply read reply) = some next →
    ∀ entry, s.objects[read.object]? = some entry →
      (s.Superseded read ∨ ∃ m ∈ reply.marker, m < entry.marker) →
        ∃ later, next.objects[read.object]? = some later ∧ later.value = entry.value
  writes : ∀ object reply next, s.step (.writeReply object reply) = some next →
    ∀ entry, s.objects[object]? = some entry →
      ∃ later, next.objects[object]? = some later ∧ (later.value = entry.value ∨
        ∃ operation requestMarker requestServerRevision marker checksum,
          entry.writer = .reading operation requestMarker requestServerRevision ∧
          reply = .accepted marker checksum ∧
          later.value = some operation.value ∧ ¬ entry.EditedAfter operation ∧
            ∀ p ∈ marker, ¬ entry.ReadAbove s.connection p)

theorem Client.Intact.reads_reply {s next : Client} (h : s.Intact) {read : Read} {reply : ReadReply}
    (hs : s.step (.readReply read reply) = some next) {entry : Entry}
    (hentry : s.objects[read.object]? = some entry)
    (hstale : s.Superseded read ∨ ∃ m ∈ reply.marker, m < entry.marker) :
    ∃ later : Entry, next.objects[read.object]? = some later ∧ later.value = entry.value := by
  obtain ⟨-, hs⟩ := Option.ite_none_right_eq_some.mp hs
  obtain rfl := Option.some.inj hs
  unfold Client.receiveRead
  split
  · exact ⟨entry, hentry, rfl⟩
  · split
    · rename_i value _ _
      have hreceived := lookup_modify_self (s := { s with unanswered := s.unanswered.erase read })
        (f := fun entry => entry.receiveValue s.connection read reply value) hentry
      refine ⟨_, hreceived, ?_⟩
      unfold Entry.receiveValue
      dsimp only
      split
      · rfl
      · rename_i hnewest
        rcases hstale with ⟨other, hother, hobject, hlt⟩ | ⟨m, hm, hlt⟩
        · -- the entry has reached the generation of the later read
          obtain ⟨entry', hentry', hle⟩ := h.reads other hother
          rw [hobject] at hentry'
          obtain rfl := Option.some.inj (hentry.symm.trans hentry')
          omega
        · have hmarker : reply.marker = some m := hm
          rw [hmarker]
          dsimp only
          rw [if_pos (Or.inr hlt)]
    · exact ⟨entry, hentry, rfl⟩

theorem Client.Intact.writes_reply {s next : Client} (h : s.Intact) {object : Nat}
    {reply : WriteReply} (hs : s.step (.writeReply object reply) = some next) {entry : Entry}
    (hentry : s.objects[object]? = some entry) :
    ∃ later : Entry, next.objects[object]? = some later ∧ (later.value = entry.value ∨
      ∃ operation requestMarker requestServerRevision marker checksum,
        entry.writer = .reading operation requestMarker requestServerRevision ∧
        reply = .accepted marker checksum ∧
        later.value = some operation.value ∧ ¬ entry.EditedAfter operation ∧
          ∀ p ∈ marker, ¬ entry.ReadAbove s.connection p) := by
  obtain rfl := Option.some.inj hs
  unfold Client.receiveWrite
  rw [hentry]
  dsimp only
  split
  · exact ⟨_, lookup_modify_self hentry, Or.inl rfl⟩
  · exact ⟨_, lookup_modify_self hentry, Or.inl rfl⟩
  · exact ⟨_, lookup_modify_self hentry, Or.inl rfl⟩
  · rename_i operation requestMarker requestServerRevision marker checksum hwriter
    refine ⟨_, lookup_modify_self hentry, ?_⟩
    refine (receiveAccepted_value (h.entries object entry hentry) operation requestMarker
      requestServerRevision marker checksum).imp_right fun hreplaced => ?_
    exact ⟨operation, requestMarker, requestServerRevision, marker, checksum, hwriter, rfl,
      hreplaced⟩
  · rename_i operation requestMarker requestServerRevision marker checksum _
    obtain ⟨later, hlater, hvalue⟩ := value_fetchValue object true (lookup_modify_self
      (f := fun entry => entry.receiveConflict requestServerRevision marker checksum) hentry)
    refine ⟨later, hlater, Or.inl (hvalue.trans ?_)⟩
    unfold Entry.receiveConflict
    dsimp only
    split
    · rfl
    · split <;> rfl
  · exact ⟨entry, hentry, Or.inl rfl⟩

/-- An edit is written, and the share is updated before the reply comes. -/
def updateBeforeReply : List Event :=
  [.snapshot [("a", { url := some "/ctx/a", checksum := some "1", marker := some 1 })],
    .readReply ⟨0, 1, 1⟩ { marker := some 1, checksum := some "1", body := .text "one" },
    .edit 0 (some (.text "two")), .edited 0 ⟨some (.text "two"), 1⟩, .writeHeaders 0,
    .update "a" (some (some "5")) (some 5)]

theorem updateBeforeReply_runs :
    (Transition.run Client.step updateBeforeReply {}).isSome = true := by decide +kernel

end Browser

end SeamlessWorkflow
