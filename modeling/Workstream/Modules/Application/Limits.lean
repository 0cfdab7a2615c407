import Mathlib.Data.Finset.Card
import Mathlib.Data.Finset.Dedup
import Workstream.Api.RateLimit
import Workstream.Modules.Application.Runs
import Workstream.ReadCommitted.Questions

/-!
# What the rate limits limit

The endpoints with a rate limit do nothing before they have been counted and
let through.  With the counts that the script gives them, no more than twice
the limit get through in any window.
-/

namespace Workstream.Application

open ReadCommitted World Discipline Redis RateLimit

section Runs

variable {E : Environment} {requests : Pid → Request} {s₀ : Db}
  {w : World schema AppError Response} {p : Pid}

/-! ## Behind the counter -/

/-- A client has had this answer to a call. -/
def Told (w : World schema AppError Response) (p : Pid) (c : Call) (n : ℕ) :
    Prop :=
  Obs.answered c n ∈ (w.session p).seen

/-- A client has been counted, and let through. -/
def Passed (w : World schema AppError Response) (p : Pid)
    (scope client account : String) (limit : ℕ) : Prop :=
  ∃ n, Told w p (.rateLimitHit scope client account) n ∧ 1 ≤ n ∧ n ≤ limit

/-- A client has tried a password. -/
def TriesPassword (w : World schema AppError Response) (p : Pid) : Prop :=
  ∃ password encoded n, Told w p (.verifyPassword password encoded) n

/-- The client has read that this is an email of the user of the token. -/
def Mailed (w : World schema AppError Response) (p : Pid)
    (authorization : Authorization) (email : String) : Prop :=
  ∃ (db : Db) (user : User), Obs.saw db ∈ (w.session p).seen ∧
    bearer authorization = some user.id ∧
    (db .users).lookup (.id user.id) = some user ∧ user.email = email

theorem Request.Behind.mono {request : Request}
    {mailed : Authorization → String → Prop}
    {passed passed' : String → String → String → ℕ → Prop}
    (h : request.Behind E mailed passed)
    (hmono : ∀ scope client account limit, passed scope client account limit →
      passed' scope client account limit) :
    request.Behind E mailed passed' := by
  unfold Request.Behind at h ⊢
  split
  · exact hmono _ _ _ _ h
  · exact hmono _ _ _ _ h
  · exact h.imp fun email => And.imp_right (hmono _ _ _ _)
  · exact hmono _ _ _ _ h
  · trivial

/-- The counter that a phase remembers has been asked. -/
theorem mem_of_hit {request : Request} {scope client account : String} {n : ℕ}
    {os : List (Obs schema)}
    (h : ((duty E request).phase {} os).hit =
      some (scope, client, account, n)) :
    Obs.answered (Call.rateLimitHit scope client account) n ∈ os := by
  induction os with
  | nil => cases h
  | cons o os ih =>
      cases o with
      | answered c m =>
          by_cases hhit : ∃ a b d, c = .rateLimitHit a b d
          · obtain ⟨a, b, d, rfl⟩ := hhit
            cases h
            exact List.mem_cons_self
          · refine List.mem_cons_of_mem _ (ih ?_)
            rw [← h]
            cases c with
            | rateLimitHit a b d => exact absurd ⟨a, b, d, rfl⟩ hhit
            | _ => rfl
      | _ => exact List.mem_cons_of_mem _ (ih h)

theorem passed_of_admitted {os : List (Obs schema)}
    (hos : os <:+ (w.session p).seen)
    (h : (requests p).Admitted E ((duty E (requests p)).phase {} os)) :
    (requests p).Behind E
      (fun authorization _ => (bearer authorization).isSome = true)
      (Passed w p) := by
  refine h.mono fun scope client account limit hwithin => ?_
  obtain ⟨n, hhit, hpos, hle⟩ := hwithin
  exact ⟨n, hos.subset (mem_of_hit hhit), hpos, hle⟩

/-- A call was allowed where it was made. -/
theorem asks_of_lawful {request : Request} {os : List (Obs schema)}
    (h : (duty E request).Lawful {} os) {c : Call} {n : ℕ}
    (hc : Obs.answered c n ∈ os) :
    ∃ os', os' <:+ os ∧ request.Asks E ((duty E request).phase {} os') c := by
  induction os with
  | nil => cases hc
  | cons o os ih =>
      rcases List.mem_cons.mp hc with rfl | hmem
      · exact ⟨os, List.suffix_cons _ os, h.1⟩
      · have hrest : (duty E request).Lawful {} os := by
          cases o with
          | answered d m => exact h.2
          | _ => exact h
        obtain ⟨os', hsuffix, hasks⟩ := ih hrest hmem
        exact ⟨os', hsuffix.trans (List.suffix_cons o os), hasks⟩

/-- If the call asks a counter, its account is that of the user of the token in
the store. -/
def Accounts (authorization : Authorization) (db : Db) (c : Call) : Prop :=
  ∀ scope client account, c = .rateLimitHit scope client account →
    ∃ user : User, bearer authorization = some user.id ∧
      (db .users).lookup (.id user.id) = some user ∧
      account = accountKey user.email

theorem asks_resendVerification (E : Environment) (client : Auth.Client)
    (userId F : Uuid) :
    ∃ k, serve E (.account (.resendVerification (.claims userId F) client)) =
      .query k ∧ ∀ db, (k db).Asks (Accounts (.claims userId F) db) := by
  refine ⟨_, rfl, fun db => ?_⟩
  change (questions _).Follows _ (Response.account <$> Auth.Response.accepted <$>
    (((do
      let user ← scalarOneOrNone (principalRows userId F db)
      let user ← Prog.require user sessionRevoked
      return (⟨user, F⟩ : Principal)) >>= fun principal =>
        pure principal.user) >>= fun user => _)) _
  simp only [follows_map, follows_bind]
  have hother : ∀ c : Call, (∀ scope client account,
      c ≠ .rateLimitHit scope client account) →
      Accounts (.claims userId F) db c :=
    fun c hc scope client account h => absurd h (hc scope client account)
  cases hrows : principalRows userId F db with
  | nil => trivial
  | cons user rest =>
      cases rest with
      | cons => trivial
      | nil =>
          have huser : user ∈ principalRows userId F db :=
            hrows ▸ List.mem_singleton_self user
          obtain ⟨hmem, rfl⟩ := of_mem_principalRows huser
          have haccount : Accounts (.claims user.id F) db
              (.rateLimitHit "verify-resend" client.address
                (accountKey user.email)) := by
            rintro _ _ _ ⟨⟩
            exact ⟨user, rfl, Relation.lookup_key hmem, rfl⟩
          have httl := hother (.rateLimitTtl "verify-resend" client.address
            (accountKey user.email)) fun _ _ _ => by simp
          have hnow := hother .now fun _ _ _ => by simp
          simp [scalarOneOrNone, enforceRateLimit, Auth.issueToken, now,
            questions, haccount, httl, hnow]

/-- A client that asks for another verification email is counted under the
email that it has read. -/
theorem mailed_of_told (hreach : Reachable (clients E requests s₀) w)
    {authorization : Authorization} {client : Auth.Client}
    (hrequest : requests p =
      .account (.resendVerification authorization client))
    (hbearer : (bearer authorization).isSome = true)
    {scope address account : String} {n : ℕ}
    (htold : Told w p (.rateLimitHit scope address account) n) :
    ∃ email, Mailed w p authorization email ∧ account = accountKey email := by
  cases authorization with
  | missing => cases hbearer
  | invalid => cases hbearer
  | claims userId F =>
      obtain ⟨k, hk, hasks⟩ := asks_resendVerification E client userId F
      have hcode : serve E (requests p) = .query k := by rw [hrequest, hk]
      obtain ⟨db, hdb, haccounts⟩ := asked_of_reachable hcode hasks hreach htold
      obtain ⟨user, huser, hlookup, haccount⟩ := haccounts _ _ _ rfl
      exact ⟨user.email, ⟨db, user, hdb, huser, hlookup, rfl⟩, haccount⟩

/-- What a rate limit guards, a commit or the check of a password, is done
after the counter has let the request through. -/
theorem behind_of_reachable (hreach : Reachable (clients E requests s₀) w)
    (h : w.commits p ≠ 0 ∨ TriesPassword w p) :
    (requests p).Behind E (Mailed w p) (Passed w p) := by
  have hbehind : (requests p).Behind E
      (fun authorization _ => (bearer authorization).isSome = true)
      (Passed w p) := by
    rcases h with hcommits | ⟨password, encoded, n, htried⟩
    · obtain ⟨c, hc, hpid⟩ :=
        List.countP_pos_iff.mp (Nat.pos_of_ne_zero hcommits)
      obtain rfl : c.pid = p := by simpa using hpid
      exact passed_of_admitted (seen_of_log hreach c hc)
        ((disciplined hreach).log c hc).commits.1
    · have hlawful := ((disciplined hreach).clients p).lawful
      obtain ⟨os, hos, hasks⟩ := asks_of_lawful hlawful htried
      exact passed_of_admitted hos hasks.1
  cases hrequest : requests p with
  | account request =>
      cases request with
      | resendVerification authorization client =>
          rw [hrequest] at hbehind
          obtain ⟨email, hbearer, n, htold, hwithin⟩ := hbehind
          obtain ⟨read, hmailed, haccount⟩ :=
            mailed_of_told hreach hrequest hbearer htold
          rw [haccount] at htold
          exact ⟨read, hmailed, n, htold, hwithin⟩
      | _ =>
          rw [hrequest] at hbehind
          exact hbehind
  | tracker client authorization endpoint =>
      rw [hrequest] at hbehind
      cases endpoint <;> exact hbehind
  | _ => trivial

/-! ## In any window -/

/-- The counter of a request, with the account of every email that its client
has read, and its limit. -/
def Request.Counts (E : Environment) (mailed : Authorization → String → Prop)
    (request : Request) (counter : String × String × String × ℕ) : Prop :=
  match request with
  | .account (.login body client) =>
      counter = ("login", client.address, accountKey body.email,
        E.settings.loginRateLimit)
  | .account (.requestReset body client) =>
      counter = ("password-reset", client.address, accountKey body.email,
        E.settings.passwordResetRateLimit)
  | .account (.resendVerification authorization client) =>
      ∀ email, mailed authorization email →
        counter = ("verify-resend", client.address, accountKey email,
          E.settings.verificationRateLimit)
  | .tracker client _ (.invite _ body) =>
      counter = ("invitation", client.address, accountKey body.email,
        E.settings.invitationRateLimit)
  | _ => False

theorem Request.Behind.passed {request : Request}
    {mailed : Authorization → String → Prop}
    {passed : String → String → String → ℕ → Prop}
    (h : request.Behind E mailed passed)
    {scope client account : String} {limit : ℕ}
    (hcounts : request.Counts E mailed (scope, client, account, limit)) :
    passed scope client account limit := by
  unfold Request.Counts at hcounts
  unfold Request.Behind at h
  split at hcounts
  · simp only [Prod.mk.injEq] at hcounts
    obtain ⟨rfl, rfl, rfl, rfl⟩ := hcounts
    exact h
  · simp only [Prod.mk.injEq] at hcounts
    obtain ⟨rfl, rfl, rfl, rfl⟩ := hcounts
    exact h
  · obtain ⟨email, hmailed, hpassed⟩ := h
    have hcounter := hcounts email hmailed
    simp only [Prod.mk.injEq] at hcounter
    obtain ⟨rfl, rfl, rfl, rfl⟩ := hcounter
    exact hpassed
  · simp only [Prod.mk.injEq] at hcounts
    obtain ⟨rfl, rfl, rfl, rfl⟩ := hcounts
    exact h
  · exact hcounts.elim

/-- The hits that the server has seen, in order of time, with the clients that
they come from and what the script has answered. -/
def answered (served : List (Pid × Hit)) : List ((Pid × Hit) × Hit × Answer) :=
  served.zip (transcript .empty (served.map Prod.snd))

/-- The counts that clients were told come from the script. -/
structure Served (digest : String → String)
    (w : World schema AppError Response) (served : List (Pid × Hit)) :
    Prop where
  sorted : served.Pairwise fun x y => x.2.time ≤ y.2.time
  told : ∀ p scope client account n,
    Told w p (.rateLimitHit scope client account) n → n ≠ 0 →
    ∃ e ∈ answered served, e.1.1 = p ∧
      limiterKey digest (.rateLimitHit scope client account) =
        some e.1.2.key ∧
      e.2.2.allowed = decide (n ≤ e.1.2.limit)

theorem transcript_fst (db : Keyspace) (hs : List Hit) :
    (transcript db hs).map Prod.fst = hs := by
  induction hs generalizing db with
  | nil => rfl
  | cons h hs ih => simp only [transcript, List.map_cons, ih]

theorem answered_snd (served : List (Pid × Hit)) :
    (answered served).map Prod.snd =
      transcript .empty (served.map Prod.snd) := by
  apply List.map_snd_zip
  rw [← List.length_map (f := Prod.fst), transcript_fst, List.length_map]

/-- An answer belongs to the hit of its client. -/
theorem answered_hit {db : Keyspace} {served : List (Pid × Hit)}
    {e : (Pid × Hit) × Hit × Answer}
    (h : e ∈ served.zip (transcript db (served.map Prod.snd))) :
    e.1 ∈ served ∧ e.2.1 = e.1.2 := by
  refine ⟨(List.of_mem_zip h).1, ?_⟩
  induction served generalizing db with
  | nil => cases h
  | cons x served ih =>
      rcases List.mem_cons.mp h with rfl | hmem
      · rfl
      · exact ih hmem

/-- Of the clients that have one counter and are counted in one window, no
more than twice the limit have been let through. -/
theorem card_passed_le {digest : String → String} {served : List (Pid × Hit)}
    (hserved : Served digest w served) {scope client account key : String}
    {limit window : ℕ} (hlimit : 1 ≤ limit)
    (hkey : limiterKey digest (.rateLimitHit scope client account) = some key)
    (huniform : Uniform key limit window (served.map Prod.snd))
    (a : Millis) (S : Finset Pid)
    (hpassed : ∀ p ∈ S, Passed w p scope client account limit)
    (hwindow : ∀ x ∈ served, x.1 ∈ S →
      a ≤ x.2.time ∧ x.2.time < a + window * 1000) :
    S.card ≤ 2 * limit := by
  let counts : (Pid × Hit) × Hit × Answer → Bool := fun e =>
    e.2.1.key = key ∧ e.2.2.allowed = true ∧ a ≤ e.2.1.time ∧
      e.2.1.time < a + window * 1000
  have hsubset : S ⊆ (((answered served).filter counts).map
      fun e => e.1.1).toFinset := by
    intro p hp
    obtain ⟨n, htold, hpos, hle⟩ := hpassed p hp
    obtain ⟨e, he, rfl, hek, hallowed⟩ :=
      hserved.told p scope client account n htold (Nat.pos_iff_ne_zero.mp hpos)
    obtain ⟨hmem, hhit⟩ := answered_hit he
    obtain rfl : key = e.1.2.key := Option.some.inj (hkey.symm.trans hek)
    have hlim := (huniform e.1.2 (List.mem_map_of_mem hmem) rfl).1
    rw [List.mem_toFinset, List.mem_map]
    refine ⟨e, List.mem_filter.mpr ⟨he, ?_⟩, rfl⟩
    have htime := hwindow e.1 hmem hp
    simp only [counts, hhit, hallowed, hlim]
    simp [hle, htime]
  have hcard := (Finset.card_le_card hsubset).trans
    (List.toFinset_card_le _)
  rw [List.length_map, ← List.countP_eq_length_filter] at hcard
  refine hcard.trans (le_of_eq_of_le ?_ (sliding_le huniform
    (List.pairwise_map.mpr hserved.sorted) hlimit a))
  rw [verdicts, List.countP_map, List.countP_filter, ← answered_snd,
    List.countP_map]
  refine List.countP_congr fun e _ => ?_
  simp [counts, and_comm]

/-- What a rate limit guards, a commit or the check of a password, is done
after the counter has let the request through; and in no window more than twice
the limit of requests with one counter get there. -/
theorem rate_limited (hreach : Reachable (clients E requests s₀) w) :
    (∀ p, w.commits p ≠ 0 ∨ TriesPassword w p →
      (requests p).Behind E (Mailed w p) (Passed w p)) ∧
    ∀ digest served, Served digest w served →
      ∀ scope client account key limit window, 1 ≤ limit →
      limiterKey digest (.rateLimitHit scope client account) = some key →
      Uniform key limit window (served.map Prod.snd) →
      ∀ (a : Millis) (S : Finset Pid),
      (∀ p ∈ S, (requests p).Counts E (Mailed w p)
        (scope, client, account, limit)) →
      (∀ p ∈ S, w.commits p ≠ 0 ∨ TriesPassword w p) →
      (∀ x ∈ served, x.1 ∈ S →
        a ≤ x.2.time ∧ x.2.time < a + window * 1000) →
      S.card ≤ 2 * limit := by
  have hbehind := fun p => behind_of_reachable hreach (p := p)
  refine ⟨hbehind, ?_⟩
  intro digest served hserved scope client account key limit window hlimit hkey
    huniform a S hcounts hthrough hwindow
  exact card_passed_le hserved hlimit hkey huniform a S
    (fun p hp => (hbehind p (hthrough p hp)).passed (hcounts p hp)) hwindow

end Runs

/-! ## Two reminders -/

/-- Bob asks twice for another verification email. -/
def remindedRequests : Pid → Request
  | 0 => .account (.resendVerification (.claims 1 34) sender)
  | 1 => .account (.resendVerification (.claims 1 34) sender)
  | _ => .seed

abbrev remindedClients : World schema AppError Response :=
  clients testing remindedRequests office

def remindedSteps : List (Pid × Input schema) :=
  steps 0 [.go, .value 1, .value 60, .value 80, .value 9, .value 81, .go,
    .value 82, .value 9, .go, .go] ++
  steps 1 [.go, .value 2, .value 60, .value 83, .value 9, .value 84, .go,
    .value 85, .value 9, .go, .go]

/-- The account that both are counted under. -/
def remindedAccount : String := accountKey "bob@example.org"

/-- A hit of Bob, where digests are left out. -/
def remindedHit (time : Millis) : Hit :=
  { time, key := "verify-resend:unknown:" ++ remindedAccount, limit := 3
    window := 60 }

def remindedHits : List (Pid × Hit) :=
  [(0, remindedHit 0), (1, remindedHit 500)]

/-- The client was told a counter other than `n` of Bob's. -/
def otherwise (n : ℕ) : Obs schema → Bool
  | .answered (.rateLimitHit scope client account) m =>
      decide ((scope, client, account, m) ≠
        ("verify-resend", "unknown", remindedAccount, n))
  | _ => false

/-- A store in which Bob has another email. -/
def elsewhere : Obs schema → Bool
  | .saw db => decide (∃ u ∈ (db .users).rows,
      User.id u = 1 ∧ User.email u ≠ "bob@example.org")
  | _ => false

/-- The two clients have been counted, one after the other. -/
structure Reminded (w : World schema AppError Response) : Prop where
  first : ∀ o ∈ (w.session 0).seen, otherwise 1 o = false ∧ elsewhere o = false
  second : ∀ o ∈ (w.session 1).seen, otherwise 2 o = false ∧ elsewhere o = false
  others : ∀ p, p ≠ 0 → p ≠ 1 → (w.session p).seen = []

theorem told_of_otherwise {p : Pid} {scope client account : String} {m n : ℕ}
    {w : World schema AppError Response}
    (h : ∀ o ∈ (w.session p).seen, otherwise n o = false ∧ elsewhere o = false)
    (htold : Told w p (.rateLimitHit scope client account) m) :
    scope = "verify-resend" ∧ client = "unknown" ∧ account = remindedAccount ∧
      m = n := by
  simpa [otherwise] using (h _ htold).1

theorem served_reminded {w : World schema AppError Response}
    (h : Reminded w) : Served id w remindedHits where
  sorted := by simp [remindedHits, remindedHit]
  told := by
    intro p scope client account n htold _
    by_cases hfirst : p = 0
    · subst p
      obtain ⟨rfl, rfl, rfl, rfl⟩ := told_of_otherwise h.first htold
      refine ⟨_, List.mem_cons_self, rfl, rfl, ?_⟩
      decide +kernel
    · by_cases hsecond : p = 1
      · subst p
        obtain ⟨rfl, rfl, rfl, rfl⟩ := told_of_otherwise h.second htold
        refine ⟨_, List.mem_cons_of_mem _ List.mem_cons_self, rfl, rfl, ?_⟩
        decide +kernel
      · rw [Told, h.others p hfirst hsecond] at htold
        cases htold

theorem counts_reminded {p : Pid} {n : ℕ}
    {w : World schema AppError Response}
    (h : ∀ o ∈ (w.session p).seen, otherwise n o = false ∧ elsewhere o = false)
    (hp : remindedRequests p =
      .account (.resendVerification (.claims 1 34) sender)) :
    (remindedRequests p).Counts testing (Mailed w p)
      ("verify-resend", "unknown", remindedAccount, 3) := by
  rw [hp]
  rintro _ ⟨db, user, hdb, hid, hlookup, rfl⟩
  have hid : User.id user = 1 := (Option.some.inj hid).symm
  have hemail : user.email = "bob@example.org" := by
    by_contra hother
    have hfalse := (h _ hdb).2
    rw [elsewhere, decide_eq_false_iff_not] at hfalse
    exact hfalse ⟨user, Relation.mem_of_lookup hlookup, hid, hother⟩
  rw [hemail]
  rfl

/-- Bob has been reminded twice, and each time he was counted under his email
before; no more than six would have been let through. -/
theorem rate_limited_reminded :
    ∃ w, Reachable remindedClients w ∧ w.commits 0 ≠ 0 ∧ w.commits 1 ≠ 0 ∧
      (∀ p ∈ ({0, 1} : Finset Pid),
        (remindedRequests p).Behind testing (Mailed w p) (Passed w p)) ∧
      Served id w remindedHits ∧ ({0, 1} : Finset Pid).card ≤ 2 * 3 := by
  have hrun : (remindedClients.run remindedSteps).any (fun w =>
      (w.commits 0 ≠ 0 ∧ w.commits 1 ≠ 0) ∧
      (∀ o ∈ (w.session 0).seen, otherwise 1 o = false ∧ elsewhere o = false) ∧
      ∀ o ∈ (w.session 1).seen, otherwise 2 o = false ∧ elsewhere o = false) =
      true := by
    decide +kernel
  obtain ⟨w, hw, htest⟩ := (Option.any_eq_true _ _).mp hrun
  obtain ⟨⟨hcommits₀, hcommits₁⟩, hfirst, hsecond⟩ := of_decide_eq_true htest
  have hreach : Reachable remindedClients w := Reachable.start.run hw
  have hreminded : Reminded w := by
    refine ⟨hfirst, hsecond, fun p hp₀ hp₁ => ?_⟩
    have hsteps : ∀ x ∈ remindedSteps, x.1 = 0 ∨ x.1 = 1 := by decide
    have hothers : ∀ x ∈ remindedSteps, x.1 ≠ p := by
      rintro x hx rfl
      exact (hsteps x hx).elim hp₀ hp₁
    rw [session, ((idle_start _ _ p).run hothers hw).2]
    rfl
  have hthrough : ∀ p ∈ ({0, 1} : Finset Pid),
      w.commits p ≠ 0 ∨ TriesPassword w p := by
    simp [hcommits₀, hcommits₁]
  obtain ⟨hbehind, hlimited⟩ := rate_limited hreach
  have hserved := served_reminded hreminded
  refine ⟨w, hreach, hcommits₀, hcommits₁,
    fun p hp => hbehind p (hthrough p hp), hserved, ?_⟩
  have hkey : limiterKey id
      (.rateLimitHit "verify-resend" "unknown" remindedAccount) =
        some (remindedHit 0).key := rfl
  refine hlimited id remindedHits hserved _ _ _ _ 3 60 (by decide) hkey ?_ 0 _
    ?_ hthrough ?_
  · simp [Uniform, remindedHits, remindedHit]
  · intro p hp
    rcases Finset.mem_insert.mp hp with rfl | hp
    · exact counts_reminded hfirst rfl
    · rw [Finset.mem_singleton.mp hp]
      exact counts_reminded hsecond rfl
  · simp [remindedHits, remindedHit]

end Workstream.Application
