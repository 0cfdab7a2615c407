import Workstream.Modules.Issues.Transactions
import Workstream.Modules.Labels.Service

/-!
# The transactions of the label service

A link is committed under the lock of its label, and a label is deleted under
its own lock, together with all the links that there are then.
-/

namespace Workstream.Labels

open ReadCommitted Contract Issues

/-! ## Effects -/

section Checks

variable (past : List schema.Ref → Db → Prop)

/-- `get` has read `label`. -/
def GotLabel (O k : Uuid) (label : Label) : Prop :=
  label.organizationId = O ∧ ∃ db, past [] db ∧
    (db .labels).lookup (.id k) = some label

/-- The `DELETE`s of the links to `k`: of all the links that there are once
the label is locked, except those that are gone by then. -/
structure Unlinks (k : Uuid) (ws : List (Write schema)) : Prop where
  links : ∀ w ∈ ws, ∃ i, w = .del .issueLabels (linkKey i k)
  all : ∃ snapshot, past [(.labels, .id k)] snapshot ∧
    ∀ i, (snapshot .issueLabels).lookup (linkKey i k) ≠ none →
      .del .issueLabels (linkKey i k) ∈ ws ∨
        ∃ db, past [(.labels, .id k)] db ∧
          (db .issueLabels).lookup (linkKey i k) = none

theorem Unlinks.not_put {past : List schema.Ref → Db → Prop} {k : Uuid}
    {ws : List (Write schema)} {t : Table} {r : Row t}
    (h : Unlinks past k ws) : .put t r ∉ ws := by
  intro hput
  obtain ⟨i, hi⟩ := h.links _ hput
  cases hi

end Checks

/-- What the commit of `update` does with the row that it has loaded. -/
inductive Updates (past : List schema.Ref → Db → Prop) (O k : Uuid)
    (user : User) (body : LabelCreate) (c : Commit schema) : Prop where
  | kept (m : Membership) (db : Db) (label : Label)
      (hpermitted : Permitted past O user.id writers m)
      (hread : readOn c = some db)
      (hrow : (db .labels).lookup (.id k) = some label)
      (hlabel : GotLabel past O k label)
      (hsame : body.name = label.name ∧ body.color = label.color)
      (hwrites : c.session.writes = [])
  | updated (m : Membership) (db : Db) (label r : Label)
      (hpermitted : Permitted past O user.id writers m)
      (hread : readOn c = some db)
      (hrow : (db .labels).lookup (.id k) = some label)
      (hlabel : GotLabel past O k label)
      (hother : ¬ (body.name = label.name ∧ body.color = label.color))
      (hbefore : (c.before .labels).lookup (.id k) = some r)
      (hwrites : c.session.writes = [.put .labels (body.flush label r)])

/-- The row that `create` inserts. -/
def newLabel (O : Uuid) (body : LabelCreate) (id : Uuid) : Label where
  id := id
  organizationId := O
  name := body.name
  color := body.color

/-- What the commit of a request does. -/
inductive Transacts (past : List schema.Ref → Db → Prop) :
    Request → Commit schema → Prop where
  | created {O : Uuid} {user : User} {body : LabelCreate} {c : Commit schema}
      (m : Membership) (id : Uuid)
      (hpermitted : Permitted past O user.id writers m)
      (hdrawn : id ∈ c.session.ids)
      (hnew : (c.before .labels).lookup (.id id) = none)
      (hwrites : c.session.writes = [.put .labels (newLabel O body id)]) :
      Transacts past (.create O user body) c
  | kept {O k : Uuid} {user : User} {body : LabelCreate} {c : Commit schema}
      (m : Membership) (label : Label)
      (hpermitted : Permitted past O user.id writers m)
      (hlabel : GotLabel past O k label)
      (hsame : body.name = label.name ∧ body.color = label.color)
      (hwrites : c.session.writes = []) :
      Transacts past (.update O k user body) c
  | updated {O k : Uuid} {user : User} {body : LabelCreate}
      {c : Commit schema} (m : Membership) (label r : Label)
      (hpermitted : Permitted past O user.id writers m)
      (hlabel : GotLabel past O k label)
      (hother : ¬ (body.name = label.name ∧ body.color = label.color))
      (hrow : (c.before .labels).lookup (.id k) = some r)
      (hwrites : c.session.writes = [.put .labels (body.flush label r)]) :
      Transacts past (.update O k user body) c
  | deleted {O k : Uuid} {user : User} {c : Commit schema} (m : Membership)
      (label r : Label) (ws : List (Write schema))
      (hpermitted : Permitted past O user.id [.owner, .admin] m)
      (hlabel : GotLabel past O k label)
      (hheld : c.Held (.labels, .id k))
      (hrow : (c.before .labels).lookup (.id k) = some r)
      (hunlinks : Unlinks past k ws)
      (hwrites : c.session.writes = .del .labels (.id k) :: ws) :
      Transacts past (.delete O k user) c
  | missed {O k : Uuid} {user : User} {c : Commit schema} (m : Membership)
      (label : Label) (db : Db)
      (hpermitted : Permitted past O user.id [.owner, .admin] m)
      (hlabel : GotLabel past O k label) (hpast : past [] db)
      (hgone : (db .labels).lookup (.id k) = none)
      (hwrites : c.session.writes = []) :
      Transacts past (.delete O k user) c
  | attached {O i k : Uuid} {user : User} {c : Commit schema}
      (m : Membership) (db : Db) (x : Issue) (label r : Label)
      (hpermitted : Permitted past O user.id writers m)
      (hgot : Got past c O i db x) (hlabel : GotLabel past O k label)
      (hheld : c.Held (.labels, .id k))
      (hrow : (c.before .labels).lookup (.id k) = some r)
      (hnew : (c.before .issueLabels).lookup (linkKey i k) = none)
      (hwrites : c.session.writes =
        [.put .issueLabels { issueId := i, labelId := k }]) :
      Transacts past (.attach O i k user) c
  | attachedBefore {O i k : Uuid} {user : User} {c : Commit schema}
      (m : Membership) (db linked : Db) (x : Issue) (label : Label)
      (hpermitted : Permitted past O user.id writers m)
      (hgot : Got past c O i db x) (hlabel : GotLabel past O k label)
      (hpast : past [] linked)
      (hlink : (linked .issueLabels).lookup (linkKey i k) ≠ none)
      (hwrites : c.session.writes = []) :
      Transacts past (.attach O i k user) c
  | detached {O i k : Uuid} {user : User} {c : Commit schema}
      (m : Membership) (db : Db) (x : Issue) (label : Label)
      (hpermitted : Permitted past O user.id writers m)
      (hgot : Got past c O i db x) (hlabel : GotLabel past O k label)
      (hlink : (c.before .issueLabels).lookup (linkKey i k) ≠ none)
      (hwrites : c.session.writes =
        [.del .issueLabels (linkKey i k)]) :
      Transacts past (.detach O i k user) c
  | detachedBefore {O i k : Uuid} {user : User} {c : Commit schema}
      (m : Membership) (db gone : Db) (x : Issue) (label : Label)
      (hpermitted : Permitted past O user.id writers m)
      (hgot : Got past c O i db x) (hlabel : GotLabel past O k label)
      (hpast : past [] gone)
      (hlink : (gone .issueLabels).lookup (linkKey i k) = none)
      (hwrites : c.session.writes = []) :
      Transacts past (.detach O i k user) c

theorem Updates.transacts {past : List schema.Ref → Db → Prop} {O k : Uuid}
    {user : User} {body : LabelCreate} {c : Commit schema}
    (h : Updates past O k user body c) :
    Transacts past (.update O k user body) c := by
  cases h with
  | kept m db label hpermitted _ _ hlabel hsame hwrites =>
      exact .kept m label hpermitted hlabel hsame hwrites
  | updated m db label r hpermitted _ _ hlabel hother hbefore hwrites =>
      exact .updated m label r hpermitted hlabel hother hbefore hwrites

/-! ## Rules -/

section Rules

variable {α : Type} {C : Contract schema} {p : Pid}
  {Q : α → Local schema → Shared schema → Prop}
  {E : AppError → Local schema → Shared schema → Prop}
  {l : Local schema} {s : Shared schema}

theorem wp_getLabel_bind {O k : Uuid} {f : Label → Tx α}
    (hempty : l.session.writes = [])
    (h : ∀ label l' s', C.Along p l s [] l' s' → C.inv s' →
      label.id = k → l' = l.observe (.saw s'.store) →
      (s'.store .labels).lookup (.id k) = some label →
      (∀ {ws l'' s''}, C.Along p l' s' ws l'' s'' →
        GotLabel (C.Past p s'') O k label) →
      C.wp p Q E (f label) none l' s')
    (hE : ∀ e l' s', Grows l l' [] → E e l' s') :
    C.wp p Q E (get O k >>= f) none l s := by
  simp only [get, bind_assoc]
  refine wp_select_bind fun s₁ h₁ hinv₁ => ?_
  rw [view_of_writes_nil hempty]
  refine wp_scalarOneOrNone_bind fun o ho => ?_
  refine wp_require_bind (fun label hlabel => ?_)
    fun _ s' => hE _ _ s' (Grows.observe l _)
  have hmem : label ∈ o.toList := by simp [hlabel]
  rw [← ho, List.mem_filter, decide_eq_true_eq] at hmem
  obtain ⟨hrow, hid, horganization⟩ := hmem
  have hlook : (s₁.store .labels).lookup (.id k) = some label := by
    rw [← hid]
    exact Relation.lookup_key hrow
  refine h label _ s₁ (Along.observe h₁ _) hinv₁ hid rfl hlook fun ha => ?_
  exact ⟨horganization, s₁.store, ha.past_nil hinv₁, hlook⟩

theorem labelId_of_linkKey {db : Db} {i k : Uuid} {x : IssueLabel}
    (h : (db .issueLabels).lookup (linkKey i k) = some x) : x.labelId = k := by
  have hkey : Key.pair x.issueId x.labelId = .pair i k :=
    Relation.key_of_lookup h
  exact (Key.pair.inj hkey).2

/-- The cascade of a deletion, under the lock of the label. -/
theorem wp_unlink_bind {k : Uuid} {f : List IssueLabel → Tx α}
    (hlock : l.locks (.labels, .id k))
    (hwrites : ∀ w ∈ l.session.writes, w.ref.1 ≠ Table.issueLabels)
    (h : ∀ rows l' s' ws, C.Along p l s ws l' s' → C.inv s' →
      (∀ {vs l'' s''}, C.Along p l' s' vs l'' s'' →
        Unlinks (C.Past p s'') k ws) →
      C.wp p Q E (f rows) none l' s') :
    C.wp p Q E (Prog.locking (σ := schema) (t := .issueLabels)
      { pred := fun x => x.labelId = k, effect := fun _ => .delete } >>= f)
      none l s := by
  have hrefs : ∀ r ∈ [((.labels, .id k) : schema.Ref)], l.locks r := by
    intro r hr
    rw [List.mem_singleton.mp hr]
    exact hlock
  have hview : ∀ s' : Shared schema,
      l.view s' .issueLabels = s'.store .issueLabels :=
    fun s' => Store.view_of_table_ne hwrites
  refine wp_deleteRows_bind ⟨rfl, rfl⟩ (fun _ => rfl)
    (fun j s' => ∃ db, C.Past p s' [(.labels, .id k)] db ∧
      (db .issueLabels).lookup j = none) ?_ ?_ ?_
  · rintro j s₁ s₂ h₁₂ _ ⟨db, hpast, hgone⟩
    exact ⟨db, hpast.wait h₁₂ hrefs, hgone⟩
  · intro j s₁ s₂ r h₁₂ hinv₂ hlook hpred hmiss
    refine ⟨s₂.store, (Along.refl l s₂).past hinv₂ hrefs, ?_⟩
    by_contra hsome
    obtain ⟨r', hr'⟩ := Option.ne_none_iff_exists'.mp hsome
    have hkey : Key.pair r.issueId r.labelId = j :=
      Relation.key_of_lookup hlook
    have hmissed := hmiss r' (by rw [hview]; exact hr')
    subst hkey
    have hlabel : r'.labelId = k :=
      (labelId_of_linkKey hr').trans (of_decide_eq_true hpred)
    exact of_decide_eq_false hmissed hlabel
  · intro rows l' s₁ s₂ ws h₁ hinv₁ h₂ hinv₂ hdeletes hmine hdone
    have ha : C.Along p l s₁ ws l' s₂ := ⟨hdeletes.grows, h₂⟩
    refine h rows l' s₂ ws ⟨hdeletes.grows, h₁.trans h₂⟩ hinv₂ fun ha' => ?_
    constructor
    · intro w hw
      obtain ⟨j, r, rfl, hlook, hpred⟩ := hmine w hw
      have hkey : Key.pair r.issueId r.labelId = j :=
        Relation.key_of_lookup hlook
      rw [of_decide_eq_true hpred] at hkey
      exact ⟨r.issueId, hkey ▸ rfl⟩
    · refine ⟨s₁.store, (ha.trans ha').past hinv₁ hrefs, fun i hi => ?_⟩
      obtain ⟨r, hr⟩ := Option.ne_none_iff_exists'.mp hi
      rcases hdone (linkKey i k) r (by rw [hview]; exact hr)
        (decide_eq_true (labelId_of_linkKey hr)) with ⟨db, hpast, hgone⟩ | hw
      · refine Or.inr ⟨db, hpast.wait ha'.rely ?_, hgone⟩
        exact fun r hr => hdeletes.grows.locks r (hrefs r hr)
      · exact Or.inl hw

theorem wp_checkLabel_bind {k : Uuid} {f : Unit → Tx α}
    (hwrites : ∀ w ∈ l.session.writes, w.ref.1 ≠ Table.labels)
    (h : ∀ r l' s', C.Along p l s [] l' s' → C.inv s' →
      (s'.store .labels).lookup (.id k) = some r →
      l'.locks (.labels, .id k) → C.wp p Q E (f ()) none l' s') :
    C.wp p Q E (checkLabel k >>= f) none l s := by
  simp only [checkLabel, bind_assoc]
  refine wp_lockKey_bind (fun _ _ _ _ _ _ => wp_halt)
    fun l' s' r h' hinv' hg hlook hlock => ?_
  rw [show l.view s' .labels = s'.store .labels from
    Store.view_of_table_ne hwrites] at hlook
  exact h r l' s' ⟨hg, h'⟩ hinv' hlook hlock

end Rules

/-! ## The endpoints -/

section Endpoints

variable {C : Contract schema} {p : Pid} {s : Shared schema} {O : Uuid}
  {user : User}

/-- The contract accepts what `request` commits. -/
abbrev Allows (C : Contract schema) (request : Request) (p : Pid) : Prop :=
  C.Accepts p fun past c => Transacts past request c

theorem requests_create {body : LabelCreate}
    (hallows : Allows C (.create O user body) p) :
    Requests C p (create O user body) {} s := by
  simp only [create]
  refine wp_permitted_bind (by simp) (fun m l₁ s₁ ha₁ _ _ hpermitted => ?_)
    fun _ _ _ hg => unwritten_of_grows hg
  refine wp_freshId_bind fun id s₂ h₂ _ _ => ?_
  have ha₂ : C.Along p l₁ s₁ [] _ { s₂ with used := id :: s₂.used } :=
    Along.draw h₂ id
  refine wp_insertRow_bind (fun s₃ h₃ _ hnone => ?_) fun e s₃ _ _ _ => ?_
  · have ha₃ := Along.insert h₃ .labels (newLabel O body id)
    refine requests_commit_bind hallows ((ha₁.trans ha₂).trans ha₃)
      (fun s' c h' _ hc hwrites => ?_) fun _ _ => requests_ret _
    have ha' := (Along.refl _ s₃).wait h'
    have hnew := Store.lookup_of_conflict_none hnone
    rw [view_of_writes_nil (ha₁.trans ha₂).writes] at hnew
    refine .created m id (hpermitted (ha₂.trans (ha₃.trans ha')) rfl) ?_
      ((ha'.committed hc (Or.inl List.mem_cons_self)).trans hnew) hwrites
    rw [hc.session]
    exact ha₃.grows.ids _ List.mem_cons_self
  · split
    · exact wp_rollbackNow_bind fun s' _ _ =>
        wp_raise fun _ _ _ => unwritten_rolledBack (ha₁.trans ha₂).grows
    · exact wp_halt
    · next hnone => cases hnone

theorem requests_updates {k : Uuid} {body : LabelCreate}
    (hallows : C.Accepts p fun past c => Updates past O k user body c) :
    Requests C p (update O k user body) {} s := by
  simp only [update]
  refine wp_permitted_bind (by simp)
    (fun m l₁ s₁ ha₁ _ hl₁ hpermitted => ?_)
    fun _ _ _ hg => unwritten_of_grows hg
  refine wp_getLabel_bind ha₁.writes
    (fun label l₂ s₂ ha₂ _ hid hl₂ hrow hlabel => ?_)
    fun _ _ _ hg => unwritten_of_grows (ha₁.grows.trans hg)
  have ha₁₂ := ha₁.trans ha₂
  have hread : ∀ {ws l' s' c}, C.Along p l₂ s₂ ws l' s' → Makes p l' s' c →
      readOn c = some s₂.store := by
    intro ws l' s' c ha hc
    apply readOn_eq (o := .saw (Local.view {} s₁))
    rw [hc.session]
    rw [hl₂, hl₁] at ha
    exact ha.grows.seen
  by_cases hsame : body.name = label.name ∧ body.color = label.color
  · rw [if_pos hsame, pure_bind]
    refine requests_commit_bind hallows ha₁₂
      (fun s' c h' _ hc hwrites => ?_) fun _ _ => requests_ret _
    have ha' := (Along.refl l₂ s₂).wait h'
    exact .kept m s₂.store label (hpermitted (ha₂.trans ha') rfl)
      (hread ha' hc) hrow (hlabel ha') hsame hwrites
  · rw [if_neg hsame, hid]
    refine wp_updateKey_bind fun l₃ s₃ s₄ r h₃ _ h₄ _ hlook _ hg₃ hlock => ?_
    have ha₃ : C.Along p l₂ s₂ _ l₃ s₄ := ⟨hg₃, h₃.trans h₄⟩
    refine requests_commit_bind hallows (ha₁₂.trans ha₃)
      (fun s' c h' _ hc hwrites => ?_) fun _ _ => requests_ret _
    have ha' := (Along.refl l₃ s₄).wait h'
    have hlast := ha₃.trans ha'
    rw [view_of_writes_nil ha₁₂.writes] at hlook
    exact .updated m s₂.store label r (hpermitted (ha₂.trans hlast) rfl)
      (hread hlast hc) hrow (hlabel hlast) hsame
      ((ha'.committed hc hlock).trans hlook) hwrites

theorem requests_update {k : Uuid} {body : LabelCreate}
    (hallows : Allows C (.update O k user body) p) :
    Requests C p (update O k user body) {} s :=
  requests_updates fun l s c hi hc ha hfirst h =>
    hallows l s c hi hc ha hfirst h.transacts

theorem requests_delete {k : Uuid} (hallows : Allows C (.delete O k user) p) :
    Requests C p (delete O k user) {} s := by
  simp only [delete]
  refine wp_permitted_bind (by simp) (fun m l₁ s₁ ha₁ _ _ hpermitted => ?_)
    fun _ _ _ hg => unwritten_of_grows hg
  refine wp_getLabel_bind ha₁.writes (fun label l₂ s₂ ha₂ _ _ _ _ hlabel => ?_)
    fun _ _ _ hg => unwritten_of_grows (ha₁.grows.trans hg)
  have ha₁₂ := ha₁.trans ha₂
  refine wp_deleteWhere_bind ⟨rfl, rfl⟩ (Key.id k)
    (fun r => by simp [primaryKey]) (fun _ => rfl) ?_ ?_
  · intro l₃ s₃ h₃ hinv₃ hgone hg₃
    have ha₃ : C.Along p l₂ s₂ [] l₃ s₃ := ⟨hg₃, h₃⟩
    simp only [pure_bind]
    refine requests_commit hallows (ha₁₂.trans ha₃)
      fun s' c h' _ hc hwrites => ?_
    have ha' := (Along.refl l₃ s₃).wait h'
    rw [view_of_writes_nil ha₁₂.writes] at hgone
    exact .missed m label s₃.store
      (hpermitted (ha₂.trans (ha₃.trans ha')) rfl) (hlabel (ha₃.trans ha'))
      (ha'.past_nil hinv₃) hgone hwrites
  · intro l₃ s₃ s₄ r h₃ _ h₄ _ hlook hg₃ hlock
    have ha₃ : C.Along p l₂ s₂ _ l₃ s₄ := ⟨hg₃, h₃.trans h₄⟩
    have ha₁₃ := ha₁₂.trans ha₃
    simp only [bind_assoc, pure_bind]
    refine wp_unlink_bind hlock (by simp [ha₁₃.writes, Write.ref])
      fun rows l₅ s₅ ws ha₅ _ hunlinks => ?_
    refine requests_commit hallows (ha₁₃.trans ha₅)
      fun s' c h' _ hc hwrites => ?_
    have ha' := (Along.refl l₅ s₅).wait h'
    have hlast := ha₃.trans (ha₅.trans ha')
    rw [view_of_writes_nil ha₁₂.writes] at hlook
    exact .deleted m label r ws (hpermitted (ha₂.trans hlast) rfl)
      (hlabel hlast) ((hc.held _).mpr ((ha₅.trans ha').grows.locks _ hlock))
      (((ha₅.trans ha').committed hc hlock).trans hlook) (hunlinks ha')
      hwrites

theorem link_of_conflict {db : Db} {i k : Uuid} {e : Key}
    (h : db.conflict .issueLabels { issueId := i, labelId := k } = some e) :
    (db .issueLabels).lookup (linkKey i k) ≠ none := by
  intro hnone
  have hlook : (db .issueLabels).lookup
      (primaryKey .issueLabels { issueId := i, labelId := k }) = none := hnone
  simp [Store.conflict, hlook, Store.clash, uniqueEntries] at h

/-- The reads with which `attach` and `detach` begin. -/
theorem requests_linking {i k : Uuid}
    {f : Membership → Issue → Label → Tx α}
    (h : ∀ m x label snapshot l' s', C.Along p {} s [] l' s' →
      (∀ {ws l'' s'' c}, C.Along p l' s' ws l'' s'' → Makes p l'' s'' c →
        Permitted (C.Past p s'') O user.id writers m ∧
          Got (C.Past p s'') c O i snapshot x ∧
          GotLabel (C.Past p s'') O k label) →
      Requests C p (f m x label) l' s') :
    Requests C p (requireMembership O user.id writers >>= fun m =>
      getIssue O i >>= fun x => get O k >>= f m x) {} s := by
  refine wp_permitted_bind (by simp) (fun m l₁ s₁ ha₁ _ _ hpermitted => ?_)
    fun _ _ _ hg => unwritten_of_grows hg
  refine wp_getIssue_bind ha₁.writes (fun x l₂ s₂ ha₂ _ _ _ hgot => ?_)
    fun _ _ _ hg => unwritten_of_grows (ha₁.grows.trans hg)
  have ha₁₂ := ha₁.trans ha₂
  refine wp_getLabel_bind ha₁₂.writes (fun label l₃ s₃ ha₃ _ _ _ _ hlabel => ?_)
    fun _ _ _ hg => unwritten_of_grows (ha₁₂.grows.trans hg)
  refine h m x label s₂.store l₃ s₃ (ha₁₂.trans ha₃) fun ha hc => ?_
  exact ⟨hpermitted (ha₂.trans (ha₃.trans ha)) rfl, hgot (ha₃.trans ha) hc,
    hlabel ha⟩

theorem requests_attach {i k : Uuid}
    (hallows : Allows C (.attach O i k user) p) :
    Requests C p (attach O i k user) {} s := by
  refine requests_linking fun m x label snapshot l₁ s₁ ha₁ hreads => ?_
  refine wp_insertRow_bind (fun s₂ h₂ _ hnone => ?_)
    fun e s₂ h₂ hinv₂ hconflict => ?_
  · have ha₂ := Along.insert h₂ .issueLabels { issueId := i, labelId := k }
    refine wp_checkLabel_bind (by simp [(ha₁.trans ha₂).writes, Write.ref])
      fun r l₃ s₃ ha₃ _ hrow hlock => ?_
    refine requests_commit hallows ((ha₁.trans ha₂).trans ha₃)
      fun s' c h' _ hc hwrites => ?_
    have ha' := (Along.refl l₃ s₃).wait h'
    obtain ⟨hpermitted, hgot, hlabel⟩ := hreads (ha₂.trans (ha₃.trans ha')) hc
    have hnew := Store.lookup_of_conflict_none hnone
    rw [view_of_writes_nil ha₁.writes] at hnew
    exact .attached m snapshot x label r hpermitted hgot hlabel
      ((hc.held _).mpr (ha'.grows.locks _ hlock))
      ((ha'.committed hc hlock).trans hrow)
      (((ha₃.trans ha').committed hc (Or.inl List.mem_cons_self)).trans hnew)
      hwrites
  · have ha₂ : C.Along p l₁ s₁ [] l₁ s₂ := (Along.refl l₁ s₁).wait h₂
    simp only [pure_bind]
    refine requests_commit hallows (ha₁.trans ha₂)
      fun s' c h' _ hc hwrites => ?_
    have ha' := (Along.refl l₁ s₂).wait h'
    obtain ⟨hpermitted, hgot, hlabel⟩ := hreads (ha₂.trans ha') hc
    rw [view_of_writes_nil ha₁.writes] at hconflict
    exact .attachedBefore m snapshot s₂.store x label hpermitted hgot hlabel
      (ha'.past_nil hinv₂) (link_of_conflict hconflict) hwrites

theorem requests_detach {i k : Uuid}
    (hallows : Allows C (.detach O i k user) p) :
    Requests C p (detach O i k user) {} s := by
  refine requests_linking fun m x label snapshot l₁ s₁ ha₁ hreads => ?_
  refine wp_deleteKey_bind ?_ ?_
  · intro l₂ s₂ h₂ hinv₂ hgone hg₂
    have ha₂ : C.Along p l₁ s₁ [] l₂ s₂ := ⟨hg₂, h₂⟩
    refine requests_commit hallows (ha₁.trans ha₂)
      fun s' c h' _ hc hwrites => ?_
    have ha' := (Along.refl l₂ s₂).wait h'
    obtain ⟨hpermitted, hgot, hlabel⟩ := hreads (ha₂.trans ha') hc
    rw [view_of_writes_nil ha₁.writes] at hgone
    exact .detachedBefore m snapshot s₂.store x label hpermitted hgot hlabel
      (ha'.past_nil hinv₂) hgone hwrites
  · intro l₂ s₂ s₃ r h₂ _ h₃ _ hlook hg₂ hlock
    have ha₂ : C.Along p l₁ s₁ _ l₂ s₃ := ⟨hg₂, h₂.trans h₃⟩
    refine requests_commit hallows (ha₁.trans ha₂)
      fun s' c h' _ hc hwrites => ?_
    have ha' := (Along.refl l₂ s₃).wait h'
    obtain ⟨hpermitted, hgot, hlabel⟩ := hreads (ha₂.trans ha') hc
    rw [view_of_writes_nil ha₁.writes] at hlook
    refine .detached m snapshot x label hpermitted hgot hlabel ?_ hwrites
    rw [(ha'.committed hc hlock).trans hlook]
    simp

/-- All requests, under any contract that accepts their transactions. -/
theorem requests_serve {request : Request} (hallows : Allows C request p)
    (hinv : C.inv s) : Requests C p (serve request) {} s := by
  cases request with
  | create O user body => exact requests_map (requests_create hallows) hinv
  | update O k user body => exact requests_map (requests_update hallows) hinv
  | delete O k user => exact requests_map (requests_delete hallows) hinv
  | attach O i k user => exact requests_map (requests_attach hallows) hinv
  | detach O i k user => exact requests_map (requests_detach hallows) hinv

end Endpoints

end Workstream.Labels
