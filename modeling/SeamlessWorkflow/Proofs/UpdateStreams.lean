import SeamlessWorkflow.Proofs.SilentSteps

/-!
# What the clients of a namespace have been told

A client that has received everything that is under way to it has the list of its namespace. The
messages under way are those that are queued for the client and those of the broadcasts that have not
come to it; they are told in the order in which they were made, or in one that comes to the same.
-/

namespace SeamlessWorkflow

open Feed

/-- The numbers of the lists among the messages. -/
def stamps (messages : List UpdateMessage) : List Nat := messages.filterMap Message.stamp?

theorem stamps_append (messages more : List UpdateMessage) :
    stamps (messages ++ more) = stamps messages ++ stamps more := List.filterMap_append ..

/-- The messages that broadcasts have yet to bring to a client, in the order in which they were made. -/
def underway (broadcasts : List UpdateBroadcast) (i : Nat) : List UpdateMessage :=
  (broadcasts.filter fun b => b.clients.contains i).map UpdateBroadcast.message

theorem underway_append (broadcasts more : List UpdateBroadcast) (i : Nat) :
    underway (broadcasts ++ more) i = underway broadcasts i ++ underway more i := by
  unfold underway
  rw [List.filter_append, List.map_append]

theorem underway_cons (b : UpdateBroadcast) (broadcasts : List UpdateBroadcast) (i : Nat) :
    underway (b :: broadcasts) i =
      if i ∈ b.clients then b.message :: underway broadcasts i else underway broadcasts i := by
  unfold underway
  by_cases hi : i ∈ b.clients
  · rw [if_pos hi, List.filter_cons, if_pos (List.contains_iff_mem.mpr hi), List.map_cons]
  · have hcontains : ¬ b.clients.contains i = true := fun h => hi (List.contains_iff_mem.mp h)
    rw [if_neg hi, List.filter_cons, if_neg hcontains]

/-! ## One client -/

/-- What a client has been told and will be told, which is still to come. -/
structure Told (server : ShareServer) (snapshots : Nat) (c : UpdateClient) (coming : List UpdateMessage) :
    Prop where
  joining : c.phase = .greeting → c.received = [.greeting] ∧
    ((∃ m ∈ coming, m.stamp? ≠ none) ∨ ∀ m ∈ coming, Feed.View.Stale (server.listing c.name) m)
  joined : c.phase ≠ .greeting → replay (c.received ++ coming) = server.listing c.name
  inOrder : c.phase ≠ .greeting → (stamps (c.received ++ coming)).Pairwise (· < ·)
  made : ∀ stamp ∈ stamps (c.received ++ coming), stamp < snapshots

/-- A list has the entries of an earlier one with markers that are not lower. -/
def Raises (view view' : Feed.View (List String) (Option Checksum)) : Prop :=
  ∀ key old new, view key = some old → view' key = some new → old.1 ≤ new.1

namespace Told

variable {server server' : ShareServer} {snapshots snapshots' : Nat} {c c' : UpdateClient}
  {coming : List UpdateMessage}

/-- What the client has been told and will be told does not change. -/
theorem same (h : Told server snapshots c coming) {coming' : List UpdateMessage}
    (hname : c'.name = c.name) (hlisting : server'.listing c.name = server.listing c.name)
    (hle : snapshots ≤ snapshots') (hphase : c'.phase = .greeting ↔ c.phase = .greeting)
    (hreceived : c.phase = .greeting → c'.received = c.received ∧ coming'.Perm coming)
    (htold : c.phase ≠ .greeting → replay (c'.received ++ coming') = replay (c.received ++ coming) ∧
      stamps (c'.received ++ coming') = stamps (c.received ++ coming)) :
    Told server' snapshots' c' coming' := by
  refine ⟨fun hg => ?_, fun hg => ?_, fun hg => ?_, fun stamp hstamp => ?_⟩
  · obtain ⟨hsame, hperm⟩ := hreceived (hphase.mp hg)
    obtain ⟨hgreeting, hcoming⟩ := h.joining (hphase.mp hg)
    rw [hname, hlisting]
    refine ⟨hsame.trans hgreeting, hcoming.imp ?_ ?_⟩
    · rintro ⟨m, hm, hstamp⟩
      exact ⟨m, hperm.mem_iff.mpr hm, hstamp⟩
    · exact fun hall m hm => hall m (hperm.mem_iff.mp hm)
  · have hg : c.phase ≠ .greeting := fun hc => hg (hphase.mpr hc)
    rw [(htold hg).1, h.joined hg, hname, hlisting]
  · have hg : c.phase ≠ .greeting := fun hc => hg (hphase.mpr hc)
    rw [(htold hg).2]
    exact h.inOrder hg
  · refine Nat.lt_of_lt_of_le (h.made stamp ?_) hle
    by_cases hg : c.phase = .greeting
    · obtain ⟨hsame, hperm⟩ := hreceived hg
      rw [hsame, stamps_append] at hstamp
      rw [stamps_append]
      exact (List.Perm.append_left _ (hperm.filterMap _)).mem_iff.mp hstamp
    · rw [(htold hg).2] at hstamp
      exact hstamp

/-- A list is broadcast. -/
theorem shares (h : Told server snapshots c coming) (hname : c'.name = c.name)
    (hphase : c'.phase = c.phase) (hreceived : c'.received = c.received)
    (hraises : Raises (server.listing c.name) (server'.listing c.name)) :
    Told server' (snapshots + 1) c' (coming ++ [.snapshot snapshots (server'.listing c.name)]) := by
  have hstamps : stamps (c.received ++ (coming ++ [.snapshot snapshots (server'.listing c.name)])) =
      stamps (c.received ++ coming) ++ [snapshots] := by
    rw [← List.append_assoc, stamps_append]
    rfl
  refine ⟨fun hg => ?_, fun hg => ?_, fun hg => ?_, fun stamp hstamp => ?_⟩
  · rw [hphase] at hg
    refine ⟨hreceived.trans (h.joining hg).1, Or.inl ⟨_, List.mem_append_right _ (List.mem_singleton_self _), ?_⟩⟩
    exact Option.some_ne_none _
  · rw [hphase] at hg
    rw [hreceived, hname, ← List.append_assoc, replay_append, h.joined hg]
    show (server.listing c.name).receive (.snapshot snapshots _) = _
    exact Feed.View.receive_snapshot hraises
  · rw [hphase] at hg
    rw [hreceived, hstamps, List.pairwise_append]
    refine ⟨h.inOrder hg, List.pairwise_singleton .., fun a ha b hb => ?_⟩
    rw [List.mem_singleton.mp hb]
    exact h.made a ha
  · rw [hreceived, hstamps] at hstamp
    rcases List.mem_append.mp hstamp with hold | hnew
    · have := h.made stamp hold
      omega
    · have := List.mem_singleton.mp hnew
      omega

/-- A value is broadcast: the entry of its share is raised, or the share is not in the list. -/
theorem update (h : Told server snapshots c coming) (hname : c'.name = c.name)
    (hphase : c'.phase = c.phase) (hreceived : c'.received = c.received) {key : List String}
    {entry : Version}
    (hentry : (server.listing c.name key = none ∧ server'.listing c.name = server.listing c.name) ∨
      ∃ old : Version, server.listing c.name key = some old ∧ old.1 < entry.1 ∧
        server'.listing c.name = Function.update (server.listing c.name) key (some entry)) :
    Told server' (snapshots + 1) c' (coming ++ [.update key entry]) := by
  have hstamps : stamps (c.received ++ (coming ++ [Message.update key entry])) =
      stamps (c.received ++ coming) := by
    rw [← List.append_assoc, stamps_append]
    exact List.append_nil _
  refine ⟨fun hg => ?_, fun hg => ?_, fun hg => ?_, fun stamp hstamp => ?_⟩
  · rw [hphase] at hg
    obtain ⟨hgreeting, hcoming⟩ := h.joining hg
    refine ⟨hreceived.trans hgreeting, hcoming.imp ?_ ?_⟩
    · rintro ⟨m, hm, hstamp⟩
      exact ⟨m, List.mem_append_left _ hm, hstamp⟩
    · intro hall m hm
      rw [hname]
      rcases List.mem_append.mp hm with hold | hnew
      · rcases hentry with ⟨-, hsame⟩ | ⟨old, hold', hlt, hlisting⟩
        · rw [hsame]
          exact hall m hold
        · rw [hlisting]
          exact (hall m hold).update hold' hlt
      · rw [List.mem_singleton.mp hnew]
        intro current hcurrent
        rcases hentry with ⟨hnone, hsame⟩ | ⟨old, hold', hlt, hlisting⟩
        · rw [hsame, hnone] at hcurrent
          cases hcurrent
        · rw [hlisting, Function.update_self] at hcurrent
          exact Or.inr (Option.some.inj hcurrent)
  · rw [hphase] at hg
    rw [hreceived, hname, ← List.append_assoc, replay_append, h.joined hg]
    rcases hentry with ⟨hnone, hsame⟩ | ⟨old, hold, hlt, hlisting⟩
    · rw [hsame]
      exact Feed.View.receive_update_none hnone
    · rw [hlisting]
      exact Feed.View.receive_update hold (Nat.le_of_lt hlt)
  · rw [hphase] at hg
    rw [hreceived, hstamps]
    exact h.inOrder hg
  · rw [hreceived, hstamps] at hstamp
    have := h.made stamp hstamp
    omega

/-- The first list is sent, and no list is under way. -/
theorem greet (h : Told server snapshots c coming) (hg : c.phase = .greeting)
    (hlists : ∀ m ∈ coming, m.stamp? = none) (hname : c'.name = c.name) (hphase : c'.phase ≠ .greeting)
    (hreceived : c'.received = c.received ++ [.snapshot snapshots (server.listing c.name)]) :
    Told server (snapshots + 1) c' coming := by
  obtain ⟨hgreeting, hcoming⟩ := h.joining hg
  have hstale : ∀ m ∈ coming, Feed.View.Stale (server.listing c.name) m := by
    rcases hcoming with ⟨m, hm, hstamp⟩ | hall
    · exact absurd (hlists m hm) hstamp
    · exact hall
  have hstamps : stamps (c'.received ++ coming) = [snapshots] := by
    have hnone : stamps coming = [] := List.filterMap_eq_nil_iff.mpr hlists
    rw [hreceived, hgreeting, stamps_append, hnone]
    rfl
  refine ⟨fun hc => absurd hc hphase, fun _ => ?_, fun _ => ?_, fun stamp hstamp => ?_⟩
  · have hfirst : replay c'.received = server.listing c.name := by
      rw [hreceived, hgreeting, replay_append]
      show (replay [.greeting]).receive (.snapshot snapshots _) = _
      exact Feed.View.receive_snapshot fun key old new hold => nomatch hold
    rw [replay_append, hfirst, hname]
    exact Feed.View.foldl_stale hstale
  · rw [hstamps]
    exact List.pairwise_singleton ..
  · rw [hstamps] at hstamp
    have := List.mem_singleton.mp hstamp
    omega

end Told

/-- A message is told before others that it overtakes. -/
theorem replay_overtakes {told ahead rest : List UpdateMessage} {m : UpdateMessage}
    (h : (replay told).Overtakes m ahead) :
    replay (told ++ m :: (ahead ++ rest)) = replay (told ++ (ahead ++ m :: rest)) ∧
      stamps (told ++ m :: (ahead ++ rest)) = stamps (told ++ (ahead ++ m :: rest)) := by
  constructor
  · rw [replay_append, replay_append, List.foldl_cons, List.foldl_append, List.foldl_append,
      List.foldl_cons, Feed.View.foldl_overtakes h]
  · rw [stamps_append, stamps_append, stamps_append ahead]
    refine congrArg (stamps told ++ ·) ?_
    rcases h.stamps with hm | hahead
    · unfold stamps
      rw [List.filterMap_cons_none hm, List.filterMap_cons_none hm, List.filterMap_append]
    · have hahead : stamps ahead = [] := hahead
      have hcons : ∀ l, stamps (m :: l) = stamps [m] ++ stamps l := fun l => stamps_append [m] l
      rw [hcons (ahead ++ rest), stamps_append, hahead, List.nil_append, List.nil_append, ← hcons]

/-! ## Steps -/

/-- What is told to a client before a message that a broadcast brings. -/
def UpdateClient.told (c : UpdateClient) : List UpdateMessage :=
  if c.phase.initializing then c.received ++ c.pending else c.received

/-- What has been queued for a client and is told after a message that a broadcast brings now. -/
def UpdateClient.overtaken (c : UpdateClient) : List UpdateMessage :=
  if c.phase.initializing then [] else c.pending

namespace UpdateServer

/-- Is a client of this namespace connected? -/
def watched (x : UpdateServer) (name : String) : Bool :=
  x.clients.any fun c => c.connected && c.name == name

/-- The messages go to each client in the order in which they were made, or in one that comes to the
same, and no list changes other than by what is broadcast. -/
def Orderly (x : UpdateServer) : Event → Prop
  | .server event tells => x.server.Silent x.watched tells event
  | .greeted i => ∀ c ∈ x.clients[i]?, ∀ m ∈ c.pending ++ underway x.broadcasts i, m.stamp? = none
  | .send b i => ∀ broadcast ∈ x.broadcasts[b]?, ∀ c ∈ x.clients[i]?,
    c.connected = true → c.phase ≠ .greeting →
      (replay c.told).Overtakes broadcast.message
        (c.overtaken ++ underway (x.broadcasts.take b) i)
  | _ => True

/-- A client and what is under way to it. -/
structure Attended (server : ShareServer) (snapshots : Nat) (broadcasts : List UpdateBroadcast) (i : Nat)
    (c : UpdateClient) : Prop where
  started : c.connected = true → server.started = true
  told : c.connected = true → Told server snapshots c (c.pending ++ underway broadcasts i)
  flushed : c.phase = .listening → c.pending = []
  inOrder : (stamps c.received).Pairwise (· < ·)

structure Streaming (x : UpdateServer) : Prop where
  sound : x.server.Sound
  sane : x.server.Sane
  rejoining : x.server.Rejoining
  known : ∀ b ∈ x.broadcasts, ∀ i ∈ b.clients, i < x.clients.length
  clients : ∀ i c, x.clients[i]? = some c → Attended x.server x.snapshots x.broadcasts i c

variable {x x' : UpdateServer} {server server' : ShareServer} {snapshots snapshots' i : Nat}
  {broadcasts broadcasts' : List UpdateBroadcast} {c c' : UpdateClient}

/-- What a client has received is part of what it is told. -/
theorem received_inOrder {coming : List UpdateMessage} (h : Told server snapshots c coming) :
    (stamps c.received).Pairwise (· < ·) := by
  by_cases hg : c.phase = .greeting
  · rw [(h.joining hg).1]
    exact List.Pairwise.nil
  · have hall := h.inOrder hg
    rw [stamps_append, List.pairwise_append] at hall
    exact hall.1

theorem Attended.of_told (h : Attended server snapshots broadcasts i c)
    (hconnected : c'.connected = true → c.connected = true)
    (hstarted : server.started = true → server'.started = true)
    (htold : c'.connected = true → Told server' snapshots' c' (c'.pending ++ underway broadcasts' i))
    (hflushed : c'.phase = .listening → c'.pending = [])
    (hsame : c'.connected = false → c'.received = c.received) :
    Attended server' snapshots' broadcasts' i c' := by
  refine ⟨fun hc => hstarted (h.started (hconnected hc)), htold, hflushed, ?_⟩
  by_cases hc : c'.connected = true
  · exact received_inOrder (htold hc)
  · rw [hsame (Bool.eq_false_iff.mpr hc)]
    exact h.inOrder

/-- Who is not concerned by a step is told what it was. -/
theorem Attended.same (h : Attended server snapshots broadcasts i c) (hle : snapshots ≤ snapshots')
    (hcoming : underway broadcasts' i = underway broadcasts i) :
    Attended server snapshots' broadcasts' i c := by
  refine h.of_told id id (fun hc => ?_) h.flushed fun _ => rfl
  rw [hcoming]
  exact (h.told hc).same rfl rfl hle Iff.rfl (fun _ => ⟨rfl, .refl _⟩) fun _ => ⟨rfl, rfl⟩

theorem mem_clientsOf {clients : List UpdateClient} {name : String} :
    i ∈ clientsOf clients name ↔ ∃ c, clients[i]? = some c ∧ c.connected = true ∧ c.name = name := by
  unfold clientsOf
  rw [List.mem_filter, List.mem_range, Option.any_eq_true]
  constructor
  · rintro ⟨-, c, hc, hand⟩
    rw [Bool.and_eq_true, beq_iff_eq] at hand
    exact ⟨c, hc, hand.1, hand.2⟩
  · rintro ⟨c, hc, hconnected, hname⟩
    obtain ⟨hlt, -⟩ := List.getElem?_eq_some_iff.mp hc
    refine ⟨hlt, c, hc, ?_⟩
    rw [Bool.and_eq_true, beq_iff_eq]
    exact ⟨hconnected, hname⟩

/-- What a step of the server tells a client. -/
theorem Told.serve {coming : List UpdateMessage} {tells : Bool} {event : ShareServer.Event}
    {what : Announcement} (h : Told server snapshots c coming) (hs : server.Sound)
    (hstep : server.step event = some server')
    (hannounced : announcement server tells event = some (c.name, what))
    (halone : ∀ r, what = .update r → server.ListedAlone r)
    (hname : c'.name = c.name) (hphase : c'.phase = c.phase) (hreceived : c'.received = c.received) :
    Told server' (snapshots + 1) c' (coming ++ [announce server' c.name snapshots what]) := by
  cases what with
  | shares =>
    have hshrinks := shrinks_of_shares hstep hannounced
    refine h.shares hname hphase hreceived fun key old new hold hnew => ?_
    rw [hshrinks.listing hold hnew]
  | update r =>
    obtain ⟨hname', checksum, hchanged, hlisting, hregs⟩ := installs_of_update hstep hannounced
    have hversion : server'.version r = ((server.registrations r).marker + 1, checksum) := by
      have hinstalled := (ShareServer.install_registrations server hchanged r).2
      rw [if_pos rfl] at hinstalled
      rw [← hinstalled]
      unfold ShareServer.version
      rw [hregs]
    have hplace : server'.place r = server.place r := by
      unfold ShareServer.place
      rw [hregs]
      exact ((ShareServer.install_same server r checksum).places r).1
    have hmessage : announce server' c.name snapshots (.update r) =
        .update (server'.place r).spec.path (server'.version r) := rfl
    rw [hmessage, hplace, hversion]
    refine h.update hname hphase hreceived ?_
    rw [hlisting, hname']
    exact ShareServer.install_listing hs hchanged (halone r rfl)

theorem watched_of_mem (hc : c ∈ x.clients) (hconnected : c.connected = true) :
    x.watched c.name = true := by
  refine List.any_eq_true.mpr ⟨c, hc, ?_⟩
  rw [Bool.and_eq_true, beq_iff_eq]
  exact ⟨hconnected, rfl⟩

/-- What is broadcast as an update is listed under its key, or nothing is. -/
theorem Silent.listedAlone {watched : String → Bool} {tells : Bool} {event : ShareServer.Event}
    {name : String} {r : Nat} (h : server.Silent watched tells event)
    (hwatched : watched name = true) (hstep : server.step event = some server')
    (hannounced : announcement server tells event = some (name, .update r)) :
    server.ListedAlone r := by
  obtain ⟨hname, -⟩ := installs_of_update hstep hannounced
  cases event with
  | deliver r' seq checksum expected =>
    obtain ⟨⟨-, hchanged⟩, heq⟩ := Option.ite_none_right_eq_some.mp hannounced
    cases heq
    exact h hwatched hchanged
  | installPut i value =>
    unfold announcement at hannounced
    dsimp only at hannounced
    split at hannounced
    · rename_i r' marker hput
      split at hannounced
      · obtain ⟨hchanged, heq⟩ := Option.ite_none_right_eq_some.mp hannounced
        cases heq
        unfold ShareServer.Silent at h
        dsimp only at h
        rw [hput] at h
        exact h hwatched hchanged
      · cases hannounced
    · cases hannounced
  | activate r' =>
    unfold announcement at hannounced
    dsimp only at hannounced
    split at hannounced <;> cases hannounced
  | completeReattach r' =>
    unfold announcement at hannounced
    dsimp only at hannounced
    split at hannounced <;> cases hannounced
  | expireHolds n =>
    unfold announcement at hannounced
    dsimp only at hannounced
    split at hannounced
    · split at hannounced <;> cases hannounced
    · cases hannounced
  | removeNext task =>
    unfold announcement at hannounced
    dsimp only at hannounced
    split at hannounced
    · split at hannounced <;> cases hannounced
    · cases hannounced
  | _ => cases hannounced

theorem started_of_step {event : ShareServer.Event} (hstep : server.step event = some server')
    (h : server.started = true) : server'.started = true := by
  have hsame : ∀ {t : ShareServer}, some t = some server' → ShareServer.SameRequests server t →
      server'.started = true := fun heq ht => Option.some.inj heq ▸ ht.2.trans h
  cases event with
  | start =>
    cases hstep
    rfl
  | tick duration => exact hsame hstep ⟨rfl, rfl⟩
  | reserve n spec owner replaces staged =>
    dsimp only [ShareServer.step] at hstep
    split at hstep
    · rename_i t hres
      exact hsame hstep (.reserve hres)
    · exact hsame hstep ⟨rfl, rfl⟩
  | commitReservations registrations => exact hsame hstep (.commitReservations server registrations)
  | activate r =>
    obtain ⟨-, heq⟩ := Option.ite_none_right_eq_some.mp hstep
    exact hsame heq (.activate server r)
  | completeReattach r =>
    obtain ⟨-, heq⟩ := Option.ite_none_right_eq_some.mp hstep
    exact hsame heq (.completeReattach server r)
  | deliver r seq checksum expected =>
    obtain ⟨-, heq⟩ := Option.ite_none_right_eq_some.mp hstep
    exact hsame heq (.deliver server r seq checksum expected)
  | beginCloseNamespace n owner =>
    dsimp only [ShareServer.step] at hstep
    rw [if_pos h] at hstep
    exact hsame hstep (.beginCloseNamespace server n owner)
  | holdRegistration r =>
    obtain ⟨-, heq⟩ := Option.ite_none_right_eq_some.mp hstep
    exact hsame heq (.holdRegistration server r)
  | holdNamespace n owner timeout =>
    dsimp only [ShareServer.step] at hstep
    rw [if_pos h] at hstep
    exact hsame hstep (.holdNamespace server n owner timeout)
  | expireHolds n =>
    obtain ⟨-, heq⟩ := Option.ite_none_right_eq_some.mp hstep
    exact hsame heq (.expireHolds server n)
  | closeNamespace n owner =>
    obtain ⟨-, heq⟩ := Option.ite_none_right_eq_some.mp hstep
    exact hsame heq (.closeNamespace server n owner)
  | releaseNamespace n owner =>
    dsimp only [ShareServer.step] at hstep
    rw [if_pos h] at hstep
    cases hstep
  | unregister r closeNamespace =>
    dsimp only [ShareServer.step] at hstep
    rw [if_pos h] at hstep
    exact hsame hstep ⟨rfl, rfl⟩
  | removeNext task =>
    dsimp only [ShareServer.step] at hstep
    split at hstep
    · cases hstep
    · have hremoved := ShareServer.SameRequests.removeRegistration server
      exact hsame hstep ⟨(hremoved _).1, (hremoved _).2⟩
    · rename_i registration closes _
      have hfinished : ShareServer.SameRequests server
          (server.finishUnregister { registration, rest := [], closes }) := by
        unfold ShareServer.finishUnregister
        dsimp only
        split
        · exact ⟨rfl, rfl⟩
        · exact ⟨rfl, rfl⟩
      exact hsame hstep ⟨hfinished.1, hfinished.2⟩
  | put url marker =>
    dsimp only [ShareServer.step] at hstep
    split at hstep
    · cases hstep
    · split at hstep
      · cases hstep
        exact h
      · rename_i r _
        cases hstep
        exact (ShareServer.SameRequests.enterPut server r).2.trans h
  | resumePut i =>
    dsimp only [ShareServer.step] at hstep
    split at hstep
    · split at hstep
      · cases hstep
      · cases hstep
        exact h
      · rename_i r _
        cases hstep
        exact (ShareServer.SameRequests.enterPut server r).2.trans h
    · cases hstep
  | timeoutPut i =>
    dsimp only [ShareServer.step] at hstep
    split at hstep
    · cases hstep
      exact h
    · cases hstep
  | installPut i value =>
    dsimp only [ShareServer.step] at hstep
    split at hstep
    · rename_i marker r _
      cases hstep
      exact (ShareServer.SameRequests.installPut server r marker value).2.trans h
    · cases hstep

theorem Streaming.serve (h : x.Streaming) {event : ShareServer.Event} {tells : Bool}
    (horderly : x.server.Silent x.watched tells event)
    (hstep : x.server.step event = some server) :
    (x.serve event tells server).Streaming := by
  obtain ⟨hsound, hsane⟩ := h.sound.step h.sane hstep
  have hrejoining := h.rejoining.step hstep
  let close := fun c : UpdateClient => { c with connected := c.connected && staysOpen server c }
  have hlength : (x.clients.map close).length = x.clients.length := List.length_map ..
  have hclient : ∀ (i : Nat) c', (x.clients.map close)[i]? = some c' → ∃ c, x.clients[i]? = some c ∧
      c' = close c := by
    intro i c' hc'
    rw [List.getElem?_map, Option.map_eq_some_iff] at hc'
    obtain ⟨c, hc, heq⟩ := hc'
    exact ⟨c, hc, heq.symm⟩
  have hopen : ∀ c, (close c).connected = true → c.connected = true ∧ staysOpen server c = true :=
    fun c hc => (Bool.and_eq_true ..).mp hc
  have hsame : ∀ (i : Nat) c, x.clients[i]? = some c → c.connected = true → staysOpen server c = true →
      (∀ what, announcement x.server tells event ≠ some (c.name, what)) →
      server.listing c.name = x.server.listing c.name := fun i c hc hconnected hstays htold =>
    horderly.listing h.sound h.sane h.rejoining ((h.clients i c hc).started hconnected) hstep
      (watched_of_mem (List.mem_of_getElem? hc) hconnected) hstays htold
  unfold UpdateServer.serve
  cases hannounced : announcement x.server tells event with
  | none =>
    refine ⟨hsound, hsane, hrejoining, fun b hb i hi => ?_, fun i c' hc' => ?_⟩
    · exact Nat.lt_of_lt_of_eq (h.known b hb i hi) hlength.symm
    · obtain ⟨c, hc, rfl⟩ := hclient i c' hc'
      have hold := h.clients i c hc
      refine hold.of_told (fun hconnected => (hopen c hconnected).1) (started_of_step hstep)
        (fun hconnected => ?_) hold.flushed fun _ => rfl
      obtain ⟨hconnected, hstays⟩ := hopen c hconnected
      refine (hold.told hconnected).same rfl ?_ (Nat.le_refl _) Iff.rfl
        (fun _ => ⟨rfl, .refl _⟩) fun _ => ⟨rfl, rfl⟩
      refine hsame i c hc hconnected hstays fun what => ?_
      rw [hannounced]
      exact fun heq => by cases heq
  | some told =>
    obtain ⟨name, what⟩ := told
    refine ⟨hsound, hsane, hrejoining, fun b hb i hi => ?_, fun i c' hc' => ?_⟩
    · rcases List.mem_append.mp hb with hold | hnew
      · exact Nat.lt_of_lt_of_eq (h.known b hold i hi) hlength.symm
      · rw [List.mem_singleton.mp hnew] at hi
        obtain ⟨c, hc, -⟩ := mem_clientsOf.mp hi
        exact (List.getElem?_eq_some_iff.mp hc).1
    · obtain ⟨c, hc, rfl⟩ := hclient i c' hc'
      have hold := h.clients i c hc
      refine hold.of_told (fun hconnected => (hopen c hconnected).1) (started_of_step hstep)
        (fun hconnected => ?_) hold.flushed fun _ => rfl
      have hmember := hconnected
      obtain ⟨hconnected, hstays⟩ := hopen c hconnected
      rw [underway_append, underway_cons]
      by_cases hname : c.name = name
      · subst hname
        rw [if_pos (mem_clientsOf.mpr ⟨close c, hc', hmember, rfl⟩), ← List.append_assoc]
        refine Told.serve (hold.told hconnected) h.sound hstep hannounced (fun r hr => ?_) rfl rfl rfl
        rw [hr] at hannounced
        exact Silent.listedAlone horderly
          (watched_of_mem (List.mem_of_getElem? hc) hconnected) hstep hannounced
      · have hnot : i ∉ clientsOf (x.clients.map close) name := by
          intro hi
          obtain ⟨c'', hc'', -, hname'⟩ := mem_clientsOf.mp hi
          rw [hc'] at hc''
          obtain rfl := Option.some.inj hc''
          exact hname hname'
        rw [if_neg hnot]
        have hnil : underway ([] : List UpdateBroadcast) i = [] := rfl
        rw [hnil, List.append_nil]
        refine (hold.told hconnected).same rfl ?_ (Nat.le_succ _) Iff.rfl
          (fun _ => ⟨rfl, .refl _⟩) fun _ => ⟨rfl, rfl⟩
        refine hsame i c hc hconnected hstays fun what' => ?_
        rw [hannounced]
        intro heq
        exact hname (Prod.mk.inj (Option.some.inj heq)).1.symm

theorem Streaming.modify (h : x.Streaming) {f : UpdateClient → UpdateClient}
    (hle : x.snapshots ≤ snapshots')
    (hclient : ∀ c, x.clients[i]? = some c → Attended x.server snapshots' broadcasts' i (f c))
    (hothers : ∀ j, j ≠ i → underway broadcasts' j = underway x.broadcasts j)
    (hknown : ∀ b ∈ broadcasts', ∀ j ∈ b.clients, j < x.clients.length) :
    Streaming { x.modifyClient i f with snapshots := snapshots', broadcasts := broadcasts' } := by
  refine ⟨h.sound, h.sane, h.rejoining, fun b hb j hj => ?_, fun j c' hc' => ?_⟩
  · have hlength : (x.clients.modify i f).length = x.clients.length := List.length_modify ..
    exact Nat.lt_of_lt_of_eq (hknown b hb j hj) hlength.symm
  · change (x.clients.modify i f)[j]? = some c' at hc'
    rw [List.getElem?_modify] at hc'
    obtain ⟨c, hc, hnew⟩ := Option.map_eq_some_iff.mp hc'
    split at hnew
    · rename_i hij
      subst hij
      rw [← hnew]
      exact hclient c hc
    · rename_i hij
      rw [← hnew]
      exact (h.clients j c hc).same hle (hothers j (Ne.symm hij))

theorem Streaming.connect (h : x.Streaming) (hstarted : x.server.started = true)
    (hphase : c.phase = .greeting) (hpending : c.pending = []) (hreceived : c.received = [.greeting]) :
    Streaming { x with clients := x.clients ++ [c] } := by
  refine ⟨h.sound, h.sane, h.rejoining, fun b hb i hi => ?_, fun i c' hc' => ?_⟩
  · have hlt := h.known b hb i hi
    show i < (x.clients ++ [c]).length
    rw [List.length_append]
    omega
  · change (x.clients ++ [c])[i]? = some c' at hc'
    rw [List.getElem?_append] at hc'
    split at hc'
    · exact h.clients i c' hc'
    · rename_i hge
      have hcome : underway x.broadcasts i = [] := by
        unfold underway
        rw [List.map_eq_nil_iff, List.filter_eq_nil_iff]
        intro b hb hcontains
        exact hge (h.known b hb i (List.contains_iff_mem.mp hcontains))
      obtain ⟨-, heq⟩ := List.getElem?_singleton .. ▸ hc' |> Option.ite_none_right_eq_some.mp
      cases heq
      refine ⟨fun _ => hstarted, fun _ => ?_, fun _ => hpending, ?_⟩
      · rw [hpending, hcome]
        refine ⟨fun _ => ⟨hreceived, Or.inr fun m hm => nomatch hm⟩, fun hg => absurd hphase hg,
          fun hg => absurd hphase hg, fun stamp hstamp => ?_⟩
        rw [hreceived] at hstamp
        cases hstamp
      · rw [hreceived]
        exact List.Pairwise.nil

/-- A broadcast comes to a client. -/
theorem underway_send {b : Nat} {broadcast : UpdateBroadcast} (hb : broadcasts[b]? = some broadcast)
    (hi : i ∈ broadcast.clients) :
    underway broadcasts i = underway (broadcasts.take b) i ++
        broadcast.message :: underway (broadcasts.drop (b + 1)) i ∧
      underway (broadcasts.modify b fun broadcast =>
          { broadcast with clients := broadcast.clients.filter (· != i) }) i =
        underway (broadcasts.take b) i ++ underway (broadcasts.drop (b + 1)) i ∧
      ∀ j, j ≠ i → underway (broadcasts.modify b fun broadcast =>
          { broadcast with clients := broadcast.clients.filter (· != i) }) j =
        underway broadcasts j := by
  obtain ⟨hlt, hget⟩ := List.getElem?_eq_some_iff.mp hb
  have hsplit : broadcasts = broadcasts.take b ++ broadcast :: broadcasts.drop (b + 1) := by
    rw [← hget, ← List.drop_eq_getElem_cons hlt, List.take_append_drop]
  have hmem : ∀ j, j ∈ broadcast.clients.filter (· != i) ↔ j ∈ broadcast.clients ∧ j ≠ i := by
    intro j
    rw [List.mem_filter, bne_iff_ne]
  refine ⟨?_, ?_, fun j hj => ?_⟩
  · conv => lhs; rw [hsplit]
    rw [underway_append, underway_cons, if_pos hi]
  · rw [List.modify_eq_take_cons_drop hlt, hget, underway_append, underway_cons, if_neg]
    exact fun h => ((hmem i).mp h).2 rfl
  · conv => rhs; rw [hsplit]
    rw [List.modify_eq_take_cons_drop hlt, hget, underway_append, underway_append, underway_cons,
      underway_cons]
    by_cases hjb : j ∈ broadcast.clients
    · rw [if_pos hjb, if_pos ((hmem j).mpr ⟨hjb, hj⟩)]
    · rw [if_neg hjb, if_neg fun h => hjb ((hmem j).mp h).1]

/-- A message is queued for a client, or sent to it. -/
theorem Attended.queueOrSend {m : UpdateMessage} {before after : List UpdateMessage}
    (h : Attended server snapshots broadcasts i c)
    (hold : underway broadcasts i = before ++ m :: after)
    (hnew : underway broadcasts' i = before ++ after)
    (hovertakes : c.connected = true → c.phase ≠ .greeting →
      (replay c.told).Overtakes m (c.overtaken ++ before)) :
    Attended server snapshots broadcasts' i (queueOrSend m c) := by
  have htold := h.told
  rw [hold] at htold
  unfold UpdateServer.queueOrSend
  split
  · rename_i hconnected
    have hfalse : c.connected = false := by simpa using hconnected
    exact h.of_told id id (fun hc => by rw [hfalse] at hc; cases hc) h.flushed fun _ => rfl
  · rename_i hconnected
    have hconnected : c.connected = true := by simpa using hconnected
    split
    · rename_i hinit
      have htold' : c.told = c.received ++ c.pending := if_pos hinit
      have hovertaken : c.overtaken = [] := if_pos hinit
      refine h.of_told id id (fun _ => ?_) (fun hphase => ?_) fun _ => rfl
      · rw [hnew]
        refine (htold hconnected).same rfl rfl (Nat.le_refl _) Iff.rfl (fun _ => ⟨rfl, ?_⟩) fun hg => ?_
        · rw [List.append_assoc]
          refine List.Perm.append_left _ ?_
          show (m :: (before ++ after)).Perm _
          exact List.perm_middle.symm
        · have hover := hovertakes hconnected hg
          rw [htold', hovertaken] at hover
          have hboth := @replay_overtakes _ _ after _ hover
          simpa only [List.append_assoc, List.nil_append, List.cons_append] using hboth
      · rw [show c.phase = .listening from hphase] at hinit
        cases hinit
    · rename_i hinit
      have htold' : c.told = c.received := if_neg hinit
      have hovertaken : c.overtaken = c.pending := if_neg hinit
      refine h.of_told id id (fun _ => ?_) h.flushed fun hc => ?_
      · rw [hnew]
        have hg : c.phase ≠ .greeting := by
          intro hg
          rw [hg] at hinit
          exact hinit rfl
        refine (htold hconnected).same rfl rfl (Nat.le_refl _) Iff.rfl (fun hc => absurd hc hg)
          fun _ => ?_
        have hover := hovertakes hconnected hg
        rw [htold', hovertaken] at hover
        have hboth := @replay_overtakes _ _ after _ hover
        simpa only [List.append_assoc, List.nil_append, List.cons_append] using hboth
      · rw [show c.connected = false from hc] at hconnected
        cases hconnected

/-- A client goes on by itself: all that it is told stays as it was. -/
theorem Attended.advance (h : Attended server snapshots broadcasts i c) (hname : c'.name = c.name)
    (hconnected : c'.connected = true → c.connected = true)
    (hphase : c'.phase = .greeting ↔ c.phase = .greeting)
    (htold : c'.received ++ c'.pending = c.received ++ c.pending)
    (hgreeting : c.phase = .greeting → c'.received = c.received)
    (hflushed : c'.phase = .listening → c'.pending = [])
    (hsame : c'.connected = false → c'.received = c.received) :
    Attended server snapshots broadcasts i c' := by
  refine h.of_told hconnected id (fun hc => ?_) hflushed hsame
  refine (h.told (hconnected hc)).same hname rfl (Nat.le_refl _) hphase (fun hg => ?_) fun _ => ?_
  · have hreceived := hgreeting hg
    rw [hreceived] at htold
    rw [List.append_cancel_left htold]
    exact ⟨hreceived, .refl _⟩
  · rw [← List.append_assoc, ← List.append_assoc, htold]
    exact ⟨rfl, rfl⟩

/-- Every step that is orderly keeps the stream. -/
theorem Streaming.step (h : x.Streaming) {event : Event} (horderly : x.Orderly event)
    (hstep : x.step event = some x') : x'.Streaming := by
  cases event with
  | server event tells =>
    obtain ⟨server, hserver, rfl⟩ := Option.map_eq_some_iff.mp hstep
    exact h.serve horderly hserver
  | connect name =>
    unfold UpdateServer.step at hstep
    dsimp only at hstep
    split at hstep
    · cases hstep
    · rename_i hstarted
      split at hstep
      · cases hstep
      · cases hstep
        exact h.connect (by simpa using hstarted) rfl rfl rfl
  | greeted i =>
    unfold UpdateServer.step at hstep
    dsimp only at hstep
    split at hstep
    · rename_i c hc
      obtain ⟨⟨hconnected, hphase⟩, heq⟩ := Option.ite_none_right_eq_some.mp hstep
      cases heq
      refine h.modify (Nat.le_succ _) (fun c' hc' => ?_) (fun _ _ => rfl) h.known
      rw [hc] at hc'
      obtain rfl := Option.some.inj hc'
      have hold := h.clients i c hc
      refine hold.of_told id id (fun _ => ?_) (fun hl => by cases hl) fun hl => ?_
      · refine (hold.told hconnected).greet hphase (horderly c hc) rfl ?_ rfl
        exact fun hg => by cases hg
      · rw [show c.connected = false from hl] at hconnected
        cases hconnected
    · cases hstep
  | listed i =>
    unfold UpdateServer.step at hstep
    dsimp only at hstep
    split at hstep
    · rename_i c hc
      obtain ⟨⟨-, hphase⟩, heq⟩ := Option.ite_none_right_eq_some.mp hstep
      cases heq
      refine h.modify (Nat.le_refl _) (fun c' hc' => ?_) (fun _ _ => rfl) h.known
      rw [hc] at hc'
      obtain rfl := Option.some.inj hc'
      refine (h.clients i c hc).advance rfl id ?_ rfl (fun _ => rfl) (fun hl => by cases hl)
        fun _ => rfl
      rw [hphase]
      exact ⟨(fun hg => by cases hg), fun hg => by cases hg⟩
    · cases hstep
  | flush i =>
    unfold UpdateServer.step at hstep
    dsimp only at hstep
    split at hstep
    · rename_i c hc
      obtain ⟨⟨hconnected, hphase⟩, heq⟩ := Option.ite_none_right_eq_some.mp hstep
      split at heq
      · rename_i hpending
        cases heq
        refine h.modify (Nat.le_refl _) (fun c' hc' => ?_) (fun _ _ => rfl) h.known
        rw [hc] at hc'
        obtain rfl := Option.some.inj hc'
        refine (h.clients i c hc).advance rfl id ?_ rfl (fun _ => rfl) (fun _ => hpending)
          fun _ => rfl
        rw [hphase]
        exact ⟨(fun hg => by cases hg), fun hg => by cases hg⟩
      · rename_i message pending hpending
        cases heq
        refine h.modify (Nat.le_refl _) (fun c' hc' => ?_) (fun _ _ => rfl) h.known
        rw [hc] at hc'
        obtain rfl := Option.some.inj hc'
        refine (h.clients i c hc).advance rfl id Iff.rfl ?_ (fun hg => ?_) (fun hl => ?_) fun hl => ?_
        · show (c.received ++ [message]) ++ pending = c.received ++ c.pending
          rw [hpending, List.append_assoc]
          rfl
        · rw [hphase] at hg
          cases hg
        · rw [show c.phase = .listening from hl] at hphase
          cases hphase
        · rw [show c.connected = false from hl] at hconnected
          cases hconnected
    · cases hstep
  | send b i =>
    unfold UpdateServer.step at hstep
    dsimp only at hstep
    split at hstep
    · rename_i broadcast hb
      obtain ⟨hi, heq⟩ := Option.ite_none_right_eq_some.mp hstep
      cases heq
      obtain ⟨hold, hnew, hothers⟩ := underway_send hb hi
      refine h.modify (Nat.le_refl _) (fun c hc => ?_) hothers fun b' hb' j hj => ?_
      · exact (h.clients i c hc).queueOrSend hold hnew (horderly broadcast hb c hc)
      · obtain ⟨k, hk⟩ := List.mem_iff_getElem?.mp hb'
        rw [List.getElem?_modify] at hk
        obtain ⟨old, hold', heq⟩ := Option.map_eq_some_iff.mp hk
        have hknown := h.known old (List.mem_of_getElem? hold')
        split at heq
        · rw [← heq] at hj
          exact hknown j (List.mem_filter.mp hj).1
        · rw [← heq] at hj
          exact hknown j hj
    · cases hstep
  | disconnect i =>
    cases hstep
    refine h.modify (Nat.le_refl _) (fun c hc => ?_) (fun _ _ => rfl) h.known
    exact (h.clients i c hc).advance rfl (fun hl => by cases hl) Iff.rfl rfl (fun _ => rfl)
      (h.clients i c hc).flushed fun _ => rfl

/-! ## Runs -/

/-- Who has been told everything has the list of its namespace, and no list is told after a newer
one. -/
structure UpToDate (x : UpdateServer) : Prop where
  complete : ∀ (i : Nat) (c : UpdateClient), x.clients[i]? = some c → c.connected = true →
    c.phase = .listening → underway x.broadcasts i = [] →
      replay c.received = x.server.listing c.name
  inOrder : ∀ c ∈ x.clients, (stamps c.received).Pairwise (· < ·)

theorem initial_streaming : Streaming {} where
  sound := ShareServer.initial_indexed
  sane := ShareServer.initial_sane
  rejoining _ h := absurd rfl h
  known _ hb := nomatch hb
  clients _ _ hc := nomatch hc

/-- In a run that is orderly, the clients are up to date. -/
theorem reachable_upToDate (h : Transition.Reachable step {} Orderly x) : x.UpToDate := by
  have hstreaming : x.Streaming :=
    h.invariant initial_streaming fun _ _ _ hs hc hstep => hs.step hc hstep
  refine ⟨fun i c hc hconnected hphase hcome => ?_, fun c hc => ?_⟩
  · have hclient := hstreaming.clients i c hc
    have htold := (hclient.told hconnected).joined (by
      rw [hphase]
      exact fun hg => by cases hg)
    rw [hclient.flushed hphase, hcome, List.append_nil, List.append_nil] at htold
    exact htold
  · obtain ⟨i, hi⟩ := List.mem_iff_getElem?.mp hc
    exact (hstreaming.clients i c hi).inOrder

instance (x : UpdateServer) (event : Event) : Decidable (x.Orderly event) := by
  unfold Orderly
  split
  · infer_instance
  · infer_instance
  · infer_instance
  · infer_instance

/-- A client joins a namespace with a share, which then gets a value. -/
def joinAndUpdate : List Event :=
  [.server (.reserve "ctx" { path := ["a"] } (some (.context 0)) [] false) false, .server .start false,
    .server (.activate 0) false, .connect "ctx", .greeted 0, .listed 0, .flush 0,
    .server (.deliver 0 1 (some ⟨5⟩) none) false, .send 1 0]

theorem joinAndUpdate_runs : (Transition.run step joinAndUpdate {}).isSome = true := by decide

theorem reachable_upToDate_joinAndUpdate :
    ((Transition.run step joinAndUpdate {}).get joinAndUpdate_runs).UpToDate :=
  reachable_upToDate (Transition.Reachable.of_run .start (by decide) joinAndUpdate_runs)

/-- A client joins while three shares are activated. The third list is sent to it while the second one
is still queued. -/
def joinAndOvertake : List Event :=
  [.server (.reserve "ctx" { path := ["a"] } (some (.context 0)) [] false) false,
    .server (.reserve "ctx" { path := ["b"] } (some (.context 0)) [] false) false,
    .server (.reserve "ctx" { path := ["c"] } (some (.context 0)) [] false) false,
    .server .start false, .connect "ctx", .greeted 0, .server (.activate 0) false, .send 0 0,
    .server (.activate 1) false, .send 1 0, .listed 0, .flush 0, .server (.activate 2) false,
    .send 2 0, .flush 0, .flush 0]

theorem joinAndOvertake_runs : (Transition.run step joinAndOvertake {}).isSome = true := by decide

theorem not_reachable_upToDate :
    ¬ ∀ x, Transition.Reachable step {} (fun _ _ => True) x → x.UpToDate := by
  intro h
  have hcomplete := (h _ (Transition.Reachable.of_run .start (by decide) joinAndOvertake_runs)).complete
    0 _ rfl (by decide) (by decide) (by decide)
  have hmissing := congrFun hcomplete ["c"]
  revert hmissing
  decide

end UpdateServer

end SeamlessWorkflow
