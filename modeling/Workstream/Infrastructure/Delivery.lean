import Workstream.Infrastructure.EventLife
import Workstream.Modules.Auth.Tokens
import Workstream.Modules.Organizations.Steps

/-!
# Producers and consumers of mail

The endpoints that issue one-time tokens and invitations add an outbox event
in the same commit.  What the event says agrees with the row, and goes on to
agree with it until the event is delivered, so that the dispatcher can deliver
every event that it claims.
-/

namespace Workstream.Delivery

open ReadCommitted Contract World Outbox

/-! ## Agreement -/

/-- The tables whose rows have a secret that is sent by mail. -/
def Secret (t : Table) : Prop :=
  t = .oneTimeTokens ∨ t = .invitations

/-- Where a token of this purpose is presented. -/
def consumer : Purpose → String
  | .verifyEmail => "verify-email"
  | .passwordReset => "reset-password"

/-- The event tells the addressee of a row its secret, and where to go with
it. -/
inductive Carries (H : TokenHash) (db : Db) (e : OutboxEvent) :
    Table × Key → Prop where
  | token (k : Key) (row : OneTimeToken) (user : User) (raw : Token)
      (hrow : (db .oneTimeTokens).lookup k = some row)
      (huser : (db .users).lookup (.id row.userId) = some user)
      (hhash : row.tokenHash = H.hash raw)
      (htoken : e.payload.lookup "token" = some (.token raw))
      (hemail : e.payload.lookup "email" = some (.text user.email))
      (hpath : deliveryPath e.topic = some (consumer row.purpose)) :
      Carries H db e (.oneTimeTokens, k)
  | invitation (k : Key) (row : Invitation) (raw : Token)
      (hrow : (db .invitations).lookup k = some row)
      (hhash : row.tokenHash = H.hash raw)
      (htoken : e.payload.lookup "token" = some (.token raw))
      (hemail : e.payload.lookup "email" = some (.text row.invitedEmail))
      (hpath : deliveryPath e.topic = some "accept-invitation") :
      Carries H db e (.invitations, k)

/-- `deliver` finds everything that it needs in the event. -/
def Deliverable (topic : String) (payload : Payload) : Prop :=
  ∃ raw email path, payload.lookup "token" = some (.token raw) ∧
    payload.lookup "email" = some (.text email) ∧
    deliveryPath topic = some path

theorem Carries.deliverable {H : TokenHash} {db : Db} {e : OutboxEvent}
    {m : Table × Key} (h : Carries H db e m) :
    Deliverable e.topic e.payload := by
  cases h with
  | token k row user raw _ _ _ htoken hemail hpath =>
      exact ⟨raw, user.email, _, htoken, hemail, hpath⟩
  | invitation k row raw _ _ htoken hemail hpath =>
      exact ⟨raw, row.invitedEmail, _, htoken, hemail, hpath⟩

/-- Such an event is handed over to the mail server. -/
theorem Deliverable.deliver_eq {event : ClaimedEvent}
    (h : Deliverable event.topic event.payload) :
    ∃ raw email path, deliveryPath event.topic = some path ∧
      deliver event = (Prog.callOut (Call.sendEmail event.id (.text email)
        (.token raw) path) >>= fun sent =>
          if sent = 0 then .halt else pure ()) := by
  obtain ⟨raw, email, path, htoken, hemail, hpath⟩ := h
  refine ⟨raw, email, path, hpath, ?_⟩
  simp only [deliver, entry, htoken, hemail, hpath, pure_bind]

/-- The commit adds the event `k`, the row `m` whose secret it carries, and no
other of either kind. -/
structure Sends (H : TokenHash) (c : Commit schema) (k : Key)
    (m : Table × Key) : Prop where
  events : ∀ j, Added c .outboxEvents j ↔ j = k
  secrets : ∀ t j, Secret t → (Added c t j ↔ (t, j) = m)
  secret : Secret m.1
  carries : ∃ e : OutboxEvent, (c.after .outboxEvents).lookup k = some e ∧
    Carries H c.after e m

/-- Neither events nor rows with a secret are added. -/
def Silent (c : Commit schema) : Prop :=
  ∀ t j, t = .outboxEvents ∨ Secret t → ¬ Added c t j

/-- What a commit may do to the mail: it adds an event together with its row,
or none; rows keep what the events say of them, and events say the same until
they are processed. -/
structure MailStep (H : TokenHash) (c : Commit schema) : Prop where
  users : ∀ k u, (c.before .users).lookup k = some u →
    ∃ v, (c.after .users).lookup k = some v ∧ User.email v = User.email u
  tokens : ∀ k r, (c.before .oneTimeTokens).lookup k = some r →
    ∃ r' : OneTimeToken, (c.after .oneTimeTokens).lookup k = some r' ∧
      r'.tokenHash = OneTimeToken.tokenHash r ∧ r'.purpose = r.purpose ∧
      r'.userId = r.userId
  invitations : ∀ k r, (c.before .invitations).lookup k = some r →
    ∃ r' : Invitation, (c.after .invitations).lookup k = some r' ∧
      r'.tokenHash = Invitation.tokenHash r ∧
      r'.invitedEmail = r.invitedEmail
  events : ∀ k e, (c.after .outboxEvents).lookup k = some e →
    (c.before .outboxEvents).lookup k = none ∨
    ∃ r : OutboxEvent, (c.before .outboxEvents).lookup k = some r ∧
      (OutboxEvent.processedAt e = none → r.processedAt = none ∧
        e.topic = r.topic ∧ e.payload = r.payload)
  added : Silent c ∨ ∃ k m, Sends H c k m

section Steps

variable {H : TokenHash} {c : Commit schema}

theorem MailStep.carries (h : MailStep H c) {e e' : OutboxEvent}
    {m : Table × Key} (hm : Carries H c.before e m)
    (htopic : e'.topic = e.topic) (hpayload : e'.payload = e.payload) :
    Carries H c.after e' m := by
  cases hm with
  | token k row user raw hrow huser hhash htoken hemail hpath =>
      obtain ⟨row', hrow', hhash', hpurpose, howner⟩ := h.tokens _ _ hrow
      obtain ⟨user', huser', hsame⟩ := h.users _ _ huser
      refine .token k row' user' raw hrow' ?_ (hhash'.trans hhash) ?_ ?_ ?_
      · rw [howner]
        exact huser'
      · rw [hpayload]
        exact htoken
      · rw [hpayload, hsame]
        exact hemail
      · rw [htopic, hpurpose]
        exact hpath
  | invitation k row raw hrow hhash htoken hemail hpath =>
      obtain ⟨row', hrow', hhash', hemail'⟩ := h.invitations _ _ hrow
      refine .invitation k row' raw hrow' (hhash'.trans hhash) ?_ ?_ ?_
      · rw [hpayload]
        exact htoken
      · rw [hpayload, hemail']
        exact hemail
      · rw [htopic]
        exact hpath

theorem Secret.ne_outboxEvents {t : Table} (h : Secret t) :
    t ≠ .outboxEvents := by
  rcases h with rfl | rfl <;> simp

theorem sends_of_added {t : Table} {k j : Key} (hsecret : Secret t)
    (hwrites : ∀ w ∈ c.session.writes,
      w.ref.1 = .outboxEvents ∨ Secret w.ref.1 →
        w.ref = (.outboxEvents, k) ∨ w.ref = (t, j))
    (hevent : Added c .outboxEvents k) (hrow : Added c t j)
    (hcarries : ∃ e : OutboxEvent, (c.after .outboxEvents).lookup k = some e ∧
      Carries H c.after e (t, j)) : Sends H c k (t, j) where
  events := by
    intro i
    refine ⟨fun hi => ?_, fun hi => hi ▸ hevent⟩
    obtain ⟨w, hw, href⟩ := hi.written
    rcases hwrites w hw (Or.inl (by rw [href])) with h | h
    · exact (Prod.mk.inj (href.symm.trans h)).2
    · exact absurd (Prod.mk.inj (h.symm.trans href)).1 hsecret.ne_outboxEvents
  secrets := by
    intro u i hu
    constructor
    · intro hi
      obtain ⟨w, hw, href⟩ := hi.written
      rcases hwrites w hw (Or.inr (by rw [href]; exact hu)) with h | h
      · exact absurd (Prod.mk.inj (href.symm.trans h)).1 hu.ne_outboxEvents
      · exact href.symm.trans h
    · intro hi
      obtain ⟨rfl, rfl⟩ := Prod.mk.inj hi
      exact hrow
  secret := hsecret
  carries := hcarries

theorem silent_of_writes (h : ∀ w ∈ c.session.writes, ∀ t j,
    w.ref = (t, j) → t = .outboxEvents ∨ Secret t →
      (c.before t).lookup j ≠ none) : Silent c := by
  intro t j ht hadded
  obtain ⟨w, hw, href⟩ := hadded.written
  exact h w hw t j href ht hadded.1

/-- Events that a commit does not touch, or adds. -/
theorem events_of_new (hnew : ∀ w ∈ c.session.writes,
    w.ref.1 = .outboxEvents → (c.before .outboxEvents).lookup w.ref.2 = none)
    {k : Key} {e : OutboxEvent}
    (he : (c.after .outboxEvents).lookup k = some e) :
    (c.before .outboxEvents).lookup k = none ∨
    ∃ r : OutboxEvent, (c.before .outboxEvents).lookup k = some r ∧
      (e.processedAt = none → r.processedAt = none ∧
        e.topic = r.topic ∧ e.payload = r.payload) := by
  rcases hr : (c.before .outboxEvents).lookup k with _ | r
  · exact Or.inl rfl
  · have hafter := lookup_after_of_new hnew hr
    rw [he] at hafter
    obtain rfl := Option.some.inj hafter
    exact Or.inr ⟨e, rfl, fun hopen => ⟨hopen, rfl, rfl⟩⟩

/-! ## Accounts -/

section Accounts

variable {request : Auth.Request}

/-- A token that is issued is sent to its user. -/
theorem issued_sends {user owner : User} {purpose : Purpose} {topic : String}
    {ws : List (Write schema)}
    (h : Auth.Issued H c user purpose topic ws)
    (vs us : List (Write schema)) (hwrites : c.session.writes = vs ++ ws ++ us)
    (hothers : ∀ w, w ∈ vs ∨ w ∈ us →
      ¬ (w.ref.1 = .outboxEvents ∨ Secret w.ref.1))
    (howner : (c.after .users).lookup (.id user.id) = some owner)
    (hemail : owner.email = user.email)
    (hpath : deliveryPath topic = some (consumer purpose)) :
    ∃ k m, Sends H c k m := by
  cases h with
  | issued raw id eventId expiresAt time _ htoken hevent =>
      set row := Auth.issuedToken H user.id purpose id raw expiresAt with hrow
      set event := Auth.tokenEvent user topic raw eventId time with he
      have hus : ∀ w ∈ us, w.ref.1 ≠ .outboxEvents ∧ ¬ Secret w.ref.1 :=
        fun w hw => not_or.mp (hothers w (Or.inr hw))
      have hfirst : c.session.writes = vs ++ .put .oneTimeTokens row ::
          .put .outboxEvents event :: us := by
        simpa using hwrites
      have hlast : c.session.writes = (vs ++ [.put .oneTimeTokens row]) ++
          .put .outboxEvents event :: us := by
        simpa using hwrites
      have hstored : (c.after .oneTimeTokens).lookup (.id id) = some row := by
        refine lookup_after_put (t := Table.oneTimeTokens) vs hfirst
          fun w hw href => ?_
        rcases List.mem_cons.mp hw with rfl | hw
        · simp [Write.ref] at href
        · exact (hus w hw).2 (by rw [href]; exact Or.inl rfl)
      have hsent : (c.after .outboxEvents).lookup (.id eventId) =
          some event := by
        refine lookup_after_put (t := Table.outboxEvents) _ hlast
          fun w hw href => ?_
        exact (hus w hw).1 (by rw [href])
      refine ⟨.id eventId, (.oneTimeTokens, .id id), sends_of_added
        (Or.inl rfl) ?_ ⟨hevent, by simp [hsent]⟩ ⟨htoken, by simp [hstored]⟩
        ⟨event, hsent, ?_⟩⟩
      · intro w hw hmail
        rw [hwrites, List.mem_append, List.mem_append] at hw
        rcases hw with (hw | hw) | hw
        · exact absurd hmail (hothers w (Or.inl hw))
        · rcases List.mem_pair.mp hw with rfl | rfl
          · exact Or.inr rfl
          · exact Or.inl rfl
        · exact absurd hmail (hothers w (Or.inr hw))
      · refine .token _ row owner raw hstored howner rfl rfl ?_ hpath
        rw [hemail]
        rfl

/-- Account requests write no invitations, and no events but new ones. -/
theorem account_writes (h : Auth.Effects H request c) :
    ∀ w ∈ c.session.writes, w.ref.1 ≠ Table.invitations ∧
      (w.ref.1 = Table.outboxEvents →
        (c.before .outboxEvents).lookup w.ref.2 = none) := by
  have hissued : ∀ {user purpose topic ws},
      Auth.Issued H c user purpose topic ws → ∀ w ∈ ws,
        w.ref.1 ≠ Table.invitations ∧ (w.ref.1 = Table.outboxEvents →
          (c.before .outboxEvents).lookup w.ref.2 = none) := by
    rintro user purpose topic _ ⟨raw, id, eventId, expiresAt, time, _, _, hnew⟩
    simpa [Write.ref, primaryKey, Auth.tokenEvent] using hnew
  cases h with
  | registered user ws event _ _ hi hwrites =>
      intro w hw
      rw [hwrites, List.cons_append, List.mem_cons, List.mem_append,
        List.mem_singleton] at hw
      rcases hw with rfl | hw | rfl
      · simp [Write.ref]
      · exact hissued hi w hw
      · simp [Write.ref]
  | loggedIn db user verified r event _ _ _ _ _ _ _ _ hwrites =>
      simp [hwrites, Write.ref]
  | resent user owner _ _ hi => exact hissued hi
  | requested user owner _ _ hi => exact hissued hi
  | verified row time user _ _ hwrites => simp [hwrites, Write.ref]
  | reset row time user passwordHash db ws _ _ _ _ hevicts hwrites =>
      intro w hw
      rw [hwrites, List.mem_cons, List.mem_cons] at hw
      rcases hw with rfl | rfl | hw
      · simp [Write.ref]
      · simp [Write.ref]
      · simp [hevicts.ref w hw]

theorem account_added (h : Auth.Effects H request c) :
    Silent c ∨ ∃ k m, Sends H c k m := by
  have hstored : ∀ {user : User} {owner : User} {purpose topic},
      (c.before .users).lookup (.id user.id) = some owner →
      Auth.Issued H c user purpose topic c.session.writes →
      (c.after .users).lookup (.id user.id) = some owner := by
    intro user owner purpose topic howner hi
    rw [lookup_after_of_writes, howner]
    intro w hw href
    have htable := hi.ref w hw
    simp [href] at htable
  cases h with
  | registered user ws event _ _ hi hwrites =>
      right
      refine issued_sends hi [.put .users user] [.put .auditEvents event]
        hwrites ?_
        (?_ : (c.after .users).lookup (.id user.id) = some user) rfl rfl
      · simp [Write.ref, Secret]
      · refine lookup_after_put (t := Table.users) [] hwrites fun w hw href => ?_
        rcases List.mem_append.mp hw with hw | hw
        · have htable := hi.ref w hw
          simp [href] at htable
        · simp [List.mem_singleton.mp hw, Write.ref] at href
  | loggedIn db user verified r event _ _ _ _ _ _ _ _ hwrites =>
      left
      refine silent_of_writes fun w hw t j href ht => ?_
      rw [hwrites, List.mem_pair] at hw
      rcases hw with rfl | rfl <;>
        obtain ⟨rfl, rfl⟩ := Prod.mk.inj href <;> simp [Secret] at ht
  | resent user owner howner hemail hi =>
      exact Or.inr (issued_sends hi [] [] (by simp) (by simp)
        (hstored howner hi) hemail rfl)
  | requested user owner howner hemail hi =>
      exact Or.inr (issued_sends hi [] [] (by simp) (by simp)
        (hstored howner hi) hemail rfl)
  | verified row time user hclaimed _ hwrites =>
      left
      refine silent_of_writes fun w hw t j href ht => ?_
      rw [hwrites, List.mem_pair] at hw
      rcases hw with rfl | rfl
      · obtain ⟨rfl, rfl⟩ := Prod.mk.inj href
        simp [Secret] at ht
      · obtain ⟨rfl, rfl⟩ := Prod.mk.inj href
        exact Option.ne_none_iff_exists'.mpr ⟨row, hclaimed.stored⟩
  | reset row time user passwordHash db ws hclaimed _ _ _ hevicts hwrites =>
      left
      refine silent_of_writes fun w hw t j href ht => ?_
      rw [hwrites, List.mem_cons, List.mem_cons] at hw
      rcases hw with rfl | rfl | hw
      · obtain ⟨rfl, rfl⟩ := Prod.mk.inj href
        simp [Secret] at ht
      · obtain ⟨rfl, rfl⟩ := Prod.mk.inj href
        exact Option.ne_none_iff_exists'.mpr ⟨row, hclaimed.stored⟩
      · have htable := hevicts.ref w hw
        rw [href] at htable
        obtain rfl : t = Table.authSessions := htable
        simp [Secret] at ht

theorem account_mailStep (h : Auth.Effects H request c) : MailStep H c where
  users := h.keepsRows.users
  tokens := by
    intro k r hr
    obtain rfl : Key.id (OneTimeToken.id r) = k := Relation.key_of_lookup hr
    cases h.tokenStep r.id with
    | same h => exact ⟨r, h.trans hr, rfl, rfl, rfl⟩
    | issued hnone =>
        rw [Auth.oneTimeToken, hr] at hnone
        cases hnone
    | spent row hid hacts =>
        obtain ⟨token, purpose, time, hspends⟩ := hacts.spends
        have hstored := hspends.claimed.stored
        have hmarked := hspends.marked
        rw [hid] at hstored hmarked
        rw [hr] at hstored
        obtain rfl := Option.some.inj hstored
        exact ⟨_, hmarked, rfl, rfl, rfl⟩
  invitations := by
    intro k r hr
    refine ⟨r, ?_, rfl, rfl⟩
    rw [lookup_after_of_writes, hr]
    intro w hw href
    exact (account_writes h w hw).1 (by rw [href])
  events := fun k e he =>
    events_of_new (fun w hw => (account_writes h w hw).2) he
  added := account_added h

end Accounts

/-! ## Invitations -/

section Organizations

variable {past : List schema.Ref → Db → Prop}
  {request : Organizations.Request}

/-- The service writes neither users nor one-time tokens, and no events but
new ones. -/
theorem organization_writes (h : Organizations.Effects H past request c) :
    ∀ w ∈ c.session.writes, w.ref.1 ≠ Table.users ∧
      w.ref.1 ≠ Table.oneTimeTokens ∧ (w.ref.1 = Table.outboxEvents →
        (c.before .outboxEvents).lookup w.ref.2 = none) := by
  cases h with
  | created org event _ _ _ _ _ hwrites => simp [hwrites, Write.ref]
  | roleKept am m event _ _ _ _ hwrites => simp [hwrites, Write.ref]
  | roleChanged am m r event _ _ _ _ _ hwrites => simp [hwrites, Write.ref]
  | removed am m event _ _ _ _ _ hwrites => simp [hwrites, Write.ref]
  | unremoved am m event db _ _ _ _ _ _ hwrites => simp [hwrites, Write.ref]
  | invited am id eventId raw time occurredAt event _ _ _ hnew _ hwrites =>
      simpa [hwrites, Write.ref, primaryKey, Organizations.invitationEvent]
        using hnew
  | revoked am r time event _ _ _ _ hwrites => simp [hwrites, Write.ref]
  | accepted r time ws event _ _ _ _ _ _ _ hjoins _ hwrites =>
      cases hjoins <;> simp [hwrites, Write.ref]

/-- An invitation is sent to the address that is invited. -/
theorem invited_sends {O : Uuid} {actor : User}
    {body : Organizations.InvitationCreate} {id eventId : Uuid} {raw : Token}
    {time occurredAt : Instant} {event : AuditEvent}
    (hnew : (c.before .invitations).lookup (.id id) = none)
    (hevent : (c.before .outboxEvents).lookup (.id eventId) = none)
    (hwrites : c.session.writes =
      [.put .invitations (body.invitation H O actor id raw time),
        .put .auditEvents event,
        .put .outboxEvents (Organizations.invitationEvent
          (body.invitation H O actor id raw time) raw eventId occurredAt)]) :
    Sends H c (.id eventId) (.invitations, .id id) := by
  have hstored := lookup_after_put (t := Table.invitations) [] hwrites
    (by simp [Write.ref])
  have hsent := lookup_after_put (t := Table.outboxEvents) [_, _] hwrites
    (by simp)
  refine sends_of_added (Or.inr rfl) ?_ ⟨hevent, ?_⟩ ⟨hnew, ?_⟩
    ⟨_, hsent, .invitation _ _ raw hstored rfl rfl rfl rfl⟩
  · intro w hw hmail
    rw [hwrites] at hw
    simp only [List.mem_cons, List.not_mem_nil, or_false] at hw
    rcases hw with rfl | rfl | rfl
    · exact Or.inr rfl
    · simp [Write.ref, Secret] at hmail
    · exact Or.inl rfl
  · exact Option.ne_none_iff_exists'.mpr ⟨_, hsent⟩
  · exact Option.ne_none_iff_exists'.mpr ⟨_, hstored⟩

theorem organization_added (h : Organizations.Effects H past request c) :
    Silent c ∨ ∃ k m, Sends H c k m := by
  have hsilent : (∀ w ∈ c.session.writes, w.ref.1 ≠ .outboxEvents ∧
      w.ref.1 ≠ .oneTimeTokens ∧ (w.ref.1 = .invitations →
        ∃ r, (c.before .invitations).lookup w.ref.2 = some r)) → Silent c := by
    intro hwrites
    refine silent_of_writes fun w hw t j href ht => ?_
    obtain ⟨hevents, htokens, hinvitations⟩ := hwrites w hw
    rw [href] at hevents htokens hinvitations
    rcases ht with rfl | rfl | rfl
    · exact absurd rfl hevents
    · exact absurd rfl htokens
    · exact Option.ne_none_iff_exists'.mpr (hinvitations rfl)
  cases h with
  | created org event _ _ _ _ _ hwrites =>
      exact Or.inl (hsilent (by simp [hwrites, Write.ref]))
  | roleKept am m event _ _ _ _ hwrites =>
      exact Or.inl (hsilent (by simp [hwrites, Write.ref]))
  | roleChanged am m r event _ _ _ _ _ hwrites =>
      exact Or.inl (hsilent (by simp [hwrites, Write.ref]))
  | removed am m event _ _ _ _ _ hwrites =>
      exact Or.inl (hsilent (by simp [hwrites, Write.ref]))
  | unremoved am m event db _ _ _ _ _ _ hwrites =>
      exact Or.inl (hsilent (by simp [hwrites, Write.ref]))
  | invited am id eventId raw time occurredAt event _ _ hnew hevent _ hwrites =>
      exact Or.inr ⟨_, _, invited_sends hnew hevent hwrites⟩
  | revoked am r time event _ hrow _ _ hwrites =>
      obtain rfl := Organizations.invitation_id hrow
      refine Or.inl (hsilent ?_)
      simp [hwrites, Write.ref, primaryKey, hrow]
  | accepted r time ws event _ hrow _ _ _ _ _ hjoins _ hwrites =>
      refine Or.inl (hsilent ?_)
      cases hjoins <;> simp [hwrites, Write.ref, primaryKey, hrow]

theorem organization_mailStep (h : Organizations.Effects H past request c) :
    MailStep H c where
  users := by
    intro k u hu
    refine ⟨u, ?_, rfl⟩
    rw [lookup_after_of_writes, hu]
    intro w hw href
    exact (organization_writes h w hw).1 (by rw [href])
  tokens := by
    intro k r hr
    refine ⟨r, ?_, rfl, rfl, rfl⟩
    rw [lookup_after_of_writes, hr]
    intro w hw href
    exact (organization_writes h w hw).2.1 (by rw [href])
  invitations := by
    intro k r hr
    obtain rfl : Key.id (Invitation.id r) = k := Relation.key_of_lookup hr
    cases h.invitationStep r.id with
    | same h => exact ⟨r, h.trans hr, rfl, rfl⟩
    | invited O actor body raw time _ _ _ hbefore =>
        rw [Organizations.invitation, hr] at hbefore
        cases hbefore
    | revoked r' time hbefore hafter =>
        rw [Organizations.invitation, hr] at hbefore
        obtain rfl := Option.some.inj hbefore
        exact ⟨_, hafter, rfl, rfl⟩
    | accepted u r' haccepts hid =>
        have hstored := haccepts.row
        obtain ⟨τ, hmarked⟩ := haccepts.marked
        rw [hid] at hstored hmarked
        rw [Organizations.invitation, hr] at hstored
        obtain rfl := Option.some.inj hstored
        exact ⟨_, hmarked, rfl, rfl⟩
  events := fun k e he =>
    events_of_new (fun w hw => (organization_writes h w hw).2.2) he
  added := organization_added h

end Organizations

/-! ## Dispatchers -/

section Dispatchers

variable {settings : DispatchSettings} {worker : String} {batchSize : ℕ}

/-- No event appears, and one that is open says what it has said. -/
theorem dispatched_event (hold : OldEvents c)
    (h : ∀ i, EventChange settings (.dispatch worker batchSize) c i)
    {k : Key} {e : OutboxEvent}
    (he : (c.after .outboxEvents).lookup k = some e) :
    ∃ r : OutboxEvent, (c.before .outboxEvents).lookup k = some r ∧
      (e.processedAt = none → r.processedAt = none ∧
        e.topic = r.topic ∧ e.payload = r.payload) := by
  obtain rfl : Key.id (OutboxEvent.id e) = k := Relation.key_of_lookup he
  have hafter : event e.id c.after = some e := he
  cases h e.id with
  | same hsame => exact ⟨e, hsame.symm.trans hafter, fun h => ⟨h, rfl, rfl⟩⟩
  | produced e' hbefore _ _ =>
      have hsame : event e.id c.after = event e.id c.before := by
        refine lookup_after_of_writes fun w hw href => ?_
        obtain ⟨x, hx, hstored⟩ := hold w hw
        have hid : e.id = x.id :=
          Key.id.inj (Prod.mk.inj (href.symm.trans hx)).2
        rw [hid, hstored] at hbefore
        cases hbefore
      rw [hsame, hbefore] at hafter
      cases hafter
  | claimed worker batchSize time r _ hbefore _ hafter' _ _ =>
      rw [hafter] at hafter'
      obtain rfl := Option.some.inj hafter'
      exact ⟨r, hbefore, fun h => ⟨h, rfl, rfl⟩⟩
  | processed worker batchSize topic time r _ hbefore _ hafter' _ _ =>
      rw [hafter] at hafter'
      obtain rfl := Option.some.inj hafter'
      exact ⟨r, hbefore, fun h => by cases h⟩
  | failed worker batchSize error time extra r _ hbefore _ hafter' _ _ =>
      rw [hafter] at hafter'
      obtain rfl := Option.some.inj hafter'
      refine ⟨r, hbefore, fun hopen => ?_⟩
      rw [fail_processedAt] at hopen
      exact ⟨hopen, fail_topic _ _ _ _ r, fail_payload _ _ _ _ r⟩

theorem dispatcher_mailStep (hold : OldEvents c)
    (h : ∀ i, EventChange settings (.dispatch worker batchSize) c i) :
    MailStep H c := by
  have hkeeps : ∀ t k, t ≠ Table.outboxEvents →
      (c.after t).lookup k = (c.before t).lookup k := by
    intro t k ht
    refine lookup_after_of_writes fun w hw href => ?_
    obtain ⟨x, hx, _⟩ := hold w hw
    exact ht (Prod.mk.inj (href.symm.trans hx)).1
  constructor
  · intro k u hu
    exact ⟨u, (hkeeps _ k (by simp)).trans hu, rfl⟩
  · intro k r hr
    exact ⟨r, (hkeeps _ k (by simp)).trans hr, rfl, rfl, rfl⟩
  · intro k r hr
    exact ⟨r, (hkeeps _ k (by simp)).trans hr, rfl, rfl⟩
  · intro k e he
    exact Or.inr (dispatched_event hold h he)
  · left
    rintro t j ht ⟨hnone, hsome⟩
    by_cases houtbox : t = .outboxEvents
    · subst houtbox
      obtain ⟨e, he⟩ := Option.ne_none_iff_exists'.mp hsome
      obtain ⟨r, hr, _⟩ := dispatched_event hold h he
      rw [hnone] at hr
      cases hr
    · exact hsome ((hkeeps t j houtbox).trans hnone)

end Dispatchers

end Steps

/-! ## Clients -/

/-- An account request, a request to the organization service, a run of
`dispatch_outbox`, or the first half of one, which stops with the events that
it has claimed. -/
inductive Request where
  | account (request : Auth.Request) (h : request.account)
  | organization (request : Organizations.Request)
  | dispatch (worker : String) (batchSize : ℕ)
  | claim (worker : String) (batchSize : ℕ)

inductive Response where
  | account (response : Auth.Response)
  | organization
  | count (processed : ℕ)
  | claimed (events : List ClaimedEvent)

section Serve

variable (H : TokenHash) (settings : Settings)
  (dispatchSettings : DispatchSettings) (className : ℕ → String)

def serve : Request → Tx Response
  | .account request _ => .account <$> Auth.serve H settings request
  | .organization request =>
      (fun _ => .organization) <$> Organizations.serve H request
  | .dispatch worker batchSize =>
      .count <$> dispatchOutbox dispatchSettings className worker batchSize
  | .claim worker batchSize => .claimed <$>
      claimEvents worker batchSize dispatchSettings.outboxClaimSeconds

/-- What the commit of a request does. -/
def Does : Request → Commit schema → Prop
  | .account request _, c => Auth.Effects H request c
  | .organization request, c => ∃ past, Organizations.Effects H past request c
  | .dispatch worker batchSize, c => OldEvents c ∧
      ∀ i, EventChange dispatchSettings (.dispatch worker batchSize) c i
  | .claim worker batchSize, c => OldEvents c ∧
      ∀ i, EventChange dispatchSettings (.dispatch worker batchSize) c i

end Serve

section Clients

variable {H : TokenHash} {settings : Settings}
  {dispatchSettings : DispatchSettings} {className : ℕ → String}
  {requests : Pid → Request} {c : Commit schema} {p : Pid}
  {s : Shared schema}

theorem Does.mailStep {request : Request}
    (h : Does H dispatchSettings request c) : MailStep H c := by
  cases request with
  | account request _ => exact account_mailStep h
  | organization request =>
      obtain ⟨past, heffects⟩ := h
      exact organization_mailStep heffects
  | dispatch worker batchSize => exact dispatcher_mailStep h.1 h.2
  | claim worker batchSize => exact dispatcher_mailStep h.1 h.2

theorem Does.keepsRows {request : Request}
    (h : Does H dispatchSettings request c) : Auth.KeepsRows c := by
  cases request with
  | account request _ =>
      have heffects : Auth.Effects H request c := h
      exact heffects.keepsRows
  | organization request =>
      obtain ⟨past, heffects⟩ := h
      refine Auth.keepsRows_of_writes
        (fun w hw => (organization_writes heffects w hw).1) ?_
      cases heffects with
      | accepted r time ws event _ _ _ _ _ _ _ hjoins _ hwrites =>
          cases hjoins <;> simp [hwrites, Write.ref]
      | _ => simp [*, Write.ref]
  | dispatch worker batchSize =>
      refine Auth.keepsRows_of_writes ?_ ?_
      all_goals
        intro w hw
        obtain ⟨e, href, _⟩ := h.1 w hw
        simp [href]
  | claim worker batchSize =>
      refine Auth.keepsRows_of_writes ?_ ?_
      all_goals
        intro w hw
        obtain ⟨e, href, _⟩ := h.1 w hw
        simp [href]

/-- Every event that is not processed can be delivered. -/
def AllDeliverable (db : Db) : Prop :=
  ∀ k e, (db .outboxEvents).lookup k = some e →
    OutboxEvent.processedAt e = none → Deliverable e.topic e.payload

theorem MailStep.allDeliverable (h : MailStep H c)
    (hc : AllDeliverable c.before) : AllDeliverable c.after := by
  intro k e he hopen
  rcases h.events k e he with hnew | ⟨r, hr, hsame⟩
  · rcases h.added with hsilent | ⟨j, m, hsends⟩
    · exact absurd ⟨hnew, by simp [he]⟩ (hsilent _ k (Or.inl rfl))
    · obtain rfl := (hsends.events k).mp ⟨hnew, by simp [he]⟩
      obtain ⟨e', he', hcarries⟩ := hsends.carries
      rw [he] at he'
      obtain rfl := Option.some.inj he'
      exact hcarries.deliverable
  · obtain ⟨hopen', htopic, hpayload⟩ := hsame hopen
    rw [htopic, hpayload]
    exact hc k r hr hopen'

/-- Every commit has the effects of its request, and leaves events that can be
delivered. -/
def mailing (H : TokenHash) (dispatchSettings : DispatchSettings)
    (requests : Pid → Request) : Contract schema where
  inv := fun s => AllDeliverable s.store
  assume := fun _ => True
  guar := fun c => Does H dispatchSettings (requests c.pid) c
  inv_draw := fun _ _ _ h => h

theorem mailing_accepts {l : Local schema} (hinv : AllDeliverable s.store)
    (hc : Makes p l s c) (h : Does H dispatchSettings (requests p) c) :
    (mailing H dispatchSettings requests).guar c ∧
      (mailing H dispatchSettings requests).inv ⟨c.after, s.used⟩ := by
  rw [← hc.before] at hinv
  rw [← hc.pid] at h
  exact ⟨h, h.mailStep.allDeliverable hinv⟩

theorem dispatches_mailing {worker : String} {batchSize : ℕ}
    (hrequest : requests p = .dispatch worker batchSize ∨
      requests p = .claim worker batchSize) :
    Dispatches dispatchSettings (mailing H dispatchSettings requests) p worker
      batchSize := by
  intro l s c hinv hc _ hold hchange
  refine mailing_accepts hinv hc ?_
  rcases hrequest with hrequest | hrequest
  · rw [hrequest]
    exact ⟨hold, hchange⟩
  · rw [hrequest]
    exact ⟨hold, hchange⟩

/-- What a client may answer: events that it has claimed can be delivered. -/
def Answers : Response → Prop
  | .claimed events => ∀ e ∈ events, Deliverable e.topic e.payload
  | _ => True

theorem wp_serve (hinv : AllDeliverable s.store) :
    (mailing H dispatchSettings requests).wp p (fun a _ _ => Answers a)
      (fun _ _ _ => True)
      (serve H settings dispatchSettings className (requests p))
      none {} s := by
  have hmap : ∀ {β : Type} {x : Tx β} {g : β → Response}
      {Q : β → Local schema → Shared schema → Prop}
      {E : AppError → Local schema → Shared schema → Prop},
      (mailing H dispatchSettings requests).wp p Q E x none {} s →
      (∀ b l s, Q b l s → Answers (g b)) →
      (mailing H dispatchSettings requests).wp p (fun a _ _ => Answers a)
        (fun _ _ _ => True) (g <$> x) none {} s := by
    intro β x g Q E h hQ
    refine wp_map (wp_mono h .none (fun _ _ _ _ hb => hb)
      (fun _ _ _ _ _ => trivial) hinv) (fun b l s _ _ hb _ _ => ?_) hinv
    exact hQ b l s hb
  cases hrequest : requests p with
  | account request haccount =>
      refine hmap (Auth.requests_serve haccount (fun c h => Does.keepsRows h)
        (fun l s c hi hc _ _ h => mailing_accepts hi hc ?_) hinv)
        fun _ _ _ _ => trivial
      rw [hrequest]
      exact h
  | organization request =>
      have hallows : Organizations.Allows H (mailing H dispatchSettings requests)
          (fun _ => request) p := by
        intro l s c hi hc _ _ heffects
        refine mailing_accepts hi hc ?_
        rw [hrequest]
        exact ⟨_, heffects⟩
      exact hmap (Organizations.requests_serve hallows hinv)
        fun _ _ _ _ => trivial
  | dispatch worker batchSize =>
      exact hmap (wp_dispatchOutbox (dispatches_mailing (Or.inl hrequest))
        begun_start (E := fun _ _ _ => True)) fun _ _ _ _ => trivial
  | claim worker batchSize =>
      have hdispatches : Dispatches dispatchSettings
          (mailing H dispatchSettings requests) p worker batchSize :=
        dispatches_mailing (Or.inr hrequest)
      have hclaimed : (mailing H dispatchSettings requests).wp p
          (fun (events : List ClaimedEvent) _ _ =>
            ∀ e ∈ events, Deliverable e.topic e.payload) (fun _ _ _ => True)
          (claimEvents worker batchSize dispatchSettings.outboxClaimSeconds
            >>= pure) none {} s := by
        refine wp_claimEvents_bind hdispatches begun_start
          fun events l' s' _ _ hevents => wp_ret fun _ _ _ e he => ?_
        obtain ⟨r, u, hdeliverable, hr, hopen, rfl⟩ := hevents e he
        exact hdeliverable (.id r.id) r hr hopen
      rw [bind_pure] at hclaimed
      exact hmap hclaimed fun _ _ _ h => h

end Clients

/-! ## Every run -/

/-- No mail has been sent yet. -/
structure NoMail (s : Db) : Prop where
  tokens : (s .oneTimeTokens).rows = []
  invitations : (s .invitations).rows = []
  events : (s .outboxEvents).rows = []

/-- What holds of a store that was reached with the commits of `log`: a row
with a secret was added by one of them, an event together with the row that
it carries. -/
structure Mailed (H : TokenHash) (log : List (Commit schema)) (db : Db) :
    Prop where
  rows : ∀ t k, Secret t → (db t).lookup k ≠ none → ∃ c ∈ log, Added c t k
  events : ∀ k (e : OutboxEvent), (db .outboxEvents).lookup k = some e →
    ∃ c ∈ log, ∃ m, Secret m.1 ∧ Added c .outboxEvents k ∧
      Added c m.1 m.2 ∧ (e.processedAt = none → Carries H db e m)

section Runs

variable {H : TokenHash} {c : Commit schema} {log : List (Commit schema)}
  {s₀ : Db}

theorem NoMail.mailed (h : NoMail s₀) : Mailed H [] s₀ where
  rows := by
    intro t k ht hk
    obtain ⟨r, hr⟩ := Option.ne_none_iff_exists'.mp hk
    have hmem := Relation.mem_of_lookup hr
    rcases ht with rfl | rfl
    · rw [h.tokens] at hmem
      cases hmem
    · rw [h.invitations] at hmem
      cases hmem
  events := by
    intro k e he
    have hmem := Relation.mem_of_lookup he
    rw [h.events] at hmem
    cases hmem

theorem Mailed.step (h : Mailed H log c.before) (hc : MailStep H c) :
    Mailed H (c :: log) c.after where
  rows := by
    intro t k ht hk
    by_cases hnew : (c.before t).lookup k = none
    · exact ⟨c, List.mem_cons_self, hnew, hk⟩
    · obtain ⟨d, hd, hadded⟩ := h.rows t k ht hnew
      exact ⟨d, List.mem_cons_of_mem c hd, hadded⟩
  events := by
    intro k e he
    rcases hc.events k e he with hnew | ⟨r, hr, hsame⟩
    · have hadded : Added c .outboxEvents k := ⟨hnew, by simp [he]⟩
      rcases hc.added with hsilent | ⟨j, m, hsends⟩
      · exact absurd hadded (hsilent _ k (Or.inl rfl))
      · obtain rfl := (hsends.events k).mp hadded
        have hrow := (hsends.secrets m.1 m.2 hsends.secret).mpr rfl
        obtain ⟨e', he', hcarries⟩ := hsends.carries
        rw [he] at he'
        obtain rfl := Option.some.inj he'
        exact ⟨c, List.mem_cons_self, m, hsends.secret, hadded, hrow,
          fun _ => hcarries⟩
    · obtain ⟨d, hd, m, hsecret, hadded, hrow, hcarries⟩ := h.events k r hr
      refine ⟨d, List.mem_cons_of_mem c hd, m, hsecret, hadded, hrow, ?_⟩
      intro hopen
      obtain ⟨hopen', htopic, hpayload⟩ := hsame hopen
      exact hc.carries (hcarries hopen') htopic hpayload

/-- Events and rows with a secret are added in pairs. -/
theorem MailStep.paired (h : MailStep H c) :
    (∀ t k, Secret t → Added c t k → ∃! j, Added c .outboxEvents j) ∧
    ∀ j, Added c .outboxEvents j →
      ∃! m : Table × Key, Secret m.1 ∧ Added c m.1 m.2 := by
  rcases h.added with hsilent | ⟨j, m, hsends⟩
  · exact ⟨fun t k ht hadded => absurd hadded (hsilent t k (Or.inr ht)),
      fun j hadded => absurd hadded (hsilent _ j (Or.inl rfl))⟩
  · constructor
    · intro t k _ _
      exact ⟨j, (hsends.events j).mpr rfl, fun i => (hsends.events i).mp⟩
    · intro i _
      have hrow := (hsends.secrets m.1 m.2 hsends.secret).mpr rfl
      exact ⟨m, ⟨hsends.secret, hrow⟩,
        fun n hn => (hsends.secrets n.1 n.2 hn.1).mp hn.2⟩

/-- The world in which every client is about to begin. -/
abbrev clients (H : TokenHash) (settings : Settings)
    (dispatchSettings : DispatchSettings) (className : ℕ → String)
    (requests : Pid → Request) (s₀ : Db) : World schema AppError Response :=
  World.start s₀ fun p =>
    serve H settings dispatchSettings className (requests p)

/-- Every row with a secret is added together with one event, and every event
with one such row, which it carries until it is processed; the dispatcher can
deliver all that it claims. -/
theorem producers_agree_with_dispatcher (H : TokenHash) (settings : Settings)
    (dispatchSettings : DispatchSettings) (className : ℕ → String)
    (requests : Pid → Request) {s₀ : Db} (hstart : NoMail s₀)
    {w : World schema AppError Response} (hreach : Reachable
      (clients H settings dispatchSettings className requests s₀) w) :
    (∀ c ∈ w.log,
      (∀ t k, Secret t → Added c t k → ∃! j, Added c .outboxEvents j) ∧
      ∀ j, Added c .outboxEvents j →
        ∃! m : Table × Key, Secret m.1 ∧ Added c m.1 m.2) ∧
    Mailed H w.log w.store ∧
    ∀ p events, (w.procs p).prog = .ret (.claimed events) →
      ∀ event ∈ events, ∃ raw email path,
        deliveryPath event.topic = some path ∧
          deliver event = (Prog.callOut (Call.sendEmail event.id (.text email)
            (.token raw) path) >>= fun sent =>
              if sent = 0 then .halt else pure ()) := by
  have hdeliverable : AllDeliverable s₀ := by
    intro k e he
    have hmem := Relation.mem_of_lookup he
    rw [hstart.events] at hmem
    cases hmem
  have hsound := sound (C := mailing H dispatchSettings requests)
    hdeliverable (fun p => wp_serve hdeliverable) hreach fun _ _ => trivial
  have hchain := (wellFormed_of_reachable hreach).chain
  have hsteps : ∀ c ∈ w.log, MailStep H c :=
    fun c hc => Does.mailStep (hsound.guar c hc)
  refine ⟨fun c hc => (hsteps c hc).paired, ?_, ?_⟩
  · exact hchain.induction hsteps hstart.mailed
      fun c older hc holder => holder.step hc
  · intro p events hret event hevent
    have hanswer : Answers (.claimed events) := hsound.returned hret
    exact (hanswer event hevent).deliver_eq

end Runs

/-! ## A run with two events -/

/-- Dave registers, Carol asks for a reset, and a dispatcher claims what there
is to send. -/
def twoMails : Pid → Request
  | 0 => .account (.register ⟨"dave@example.org", "secret", "Dave"⟩
      Auth.browser) rfl
  | 1 => .account (.requestReset ⟨"carol@example.org"⟩ Auth.browser) rfl
  | _ => .claim "worker" 50

/-- The events that a client has claimed. -/
def claimedBy : Prog schema AppError Response → Option (List ClaimedEvent)
  | .ret (.claimed events) => some events
  | _ => none

theorem claimedBy_eq_some {prog : Prog schema AppError Response}
    {events : List ClaimedEvent} (h : claimedBy prog = some events) :
    prog = .ret (.claimed events) := by
  unfold claimedBy at h
  split at h
  · rw [Option.some.inj h]
  · cases h

/-- Both events are claimed, and can be delivered. -/
theorem producers_agree_with_dispatcher_twoMails :
    ∃ w, Reachable (clients plainHash {} {} (fun _ => "") twoMails
        Auth.oneUser) w ∧
      ∃ events, (w.procs 2).prog = .ret (.claimed events) ∧
        events.length = 2 ∧ ∀ event ∈ events,
          ∃ path, deliveryPath event.topic = some path := by
  have hrun : ((clients plainHash {} {} (fun _ => "") twoMails
      Auth.oneUser).run
        (steps 0 [.value 77, .value 2, .go, .value 10, .value 100, .value 11,
            .go, .value 12, .value 100, .go, .value 13, .value 100, .go, .go] ++
          steps 1 [.value 1, .value 60, .go, .value 20, .value 100, .value 21,
            .go, .value 22, .value 100, .go, .go] ++
          steps 2 [.value 200, .order [.id 12, .id 22], .go, .go, .go,
            .order [.id 12], .go, .go, .order [.id 22], .go, .go, .go])).any
        (fun w => ((claimedBy (w.procs 2).prog).map List.length) = some 2) =
      true := by
    decide +kernel
  obtain ⟨w, hreach, hclaimed⟩ := exists_reachable hrun
  obtain ⟨events, hevents, hlength⟩ := Option.map_eq_some_iff.mp hclaimed
  have hret := claimedBy_eq_some hevents
  have hstart : NoMail Auth.oneUser := ⟨rfl, rfl, rfl⟩
  obtain ⟨_, _, hdelivered⟩ := producers_agree_with_dispatcher plainHash {} {}
    (fun _ => "") twoMails hstart hreach
  refine ⟨w, hreach, events, hret, hlength, fun event hevent => ?_⟩
  obtain ⟨raw, email, path, hpath, _⟩ := hdelivered 2 events hret event hevent
  exact ⟨path, hpath⟩

end Workstream.Delivery
