import Workstream.Modules.Comments.Service
import Workstream.Modules.Issues.Transactions

/-!
# The transactions of the comment service
-/

namespace Workstream.Comments

open ReadCommitted Contract Issues

/-! ## Effects -/

/-- `get` has read `row`. -/
def GotComment (past : List schema.Ref → Db → Prop) (O k : Uuid)
    (row : Comment) : Prop :=
  row.organizationId = O ∧ ∃ db, past [] db ∧
    (db .comments).lookup (.id k) = some row

/-- The row that `create` inserts. -/
def newComment (O i : Uuid) (author : User) (body : CommentCreate) (id : Uuid)
    (createdAt : Instant) : Comment where
  id := id
  organizationId := O
  issueId := i
  authorId := author.id
  body := body.body
  createdAt := createdAt

/-- What the commit of a request does. -/
inductive Transacts (past : List schema.Ref → Db → Prop) :
    Request → Commit schema → Prop where
  | created {O i : Uuid} {user : User} {body : CommentCreate}
      {c : Commit schema} (m : Membership) (db : Db) (x : Issue) (id : Uuid)
      (createdAt : Instant) (hpermitted : Permitted past O user.id writers m)
      (hgot : Got past c O i db x)
      (hnew : (c.before .comments).lookup (.id id) = none)
      (hwrites : c.session.writes =
        [.put .comments (newComment O i user body id createdAt)]) :
      Transacts past (.create O i user body) c
  | updated {O k : Uuid} {user : User} {body : CommentCreate}
      {c : Commit schema} (m : Membership) (row r : Comment) (time : Instant)
      (hpermitted : Permitted past O user.id everyone m)
      (hgot : GotComment past O k row) (hauthor : row.authorId = user.id)
      (hrow : (c.before .comments).lookup (.id k) = some r)
      (hwrites : c.session.writes =
        [.put .comments (body.flush row r time)]) :
      Transacts past (.update O k user body) c
  | deleted {O k : Uuid} {user : User} {c : Commit schema} (m : Membership)
      (row r : Comment) (hpermitted : Permitted past O user.id everyone m)
      (hgot : GotComment past O k row)
      (hallowed : row.authorId = user.id ∨ m.role = .owner ∨ m.role = .admin)
      (hrow : (c.before .comments).lookup (.id k) = some r)
      (hwrites : c.session.writes = [.del .comments (.id k)]) :
      Transacts past (.delete O k user) c
  | missed {O k : Uuid} {user : User} {c : Commit schema} (m : Membership)
      (row : Comment) (db : Db)
      (hpermitted : Permitted past O user.id everyone m)
      (hgot : GotComment past O k row) (hpast : past [] db)
      (hgone : (db .comments).lookup (.id k) = none)
      (hwrites : c.session.writes = []) :
      Transacts past (.delete O k user) c

/-! ## Rules -/

section Rules

variable {α : Type} {C : Contract schema} {p : Pid}
  {Q : α → Local schema → Shared schema → Prop}
  {E : AppError → Local schema → Shared schema → Prop}
  {l : Local schema} {s : Shared schema}

theorem wp_getComment_bind {O k : Uuid} {f : Comment → Tx α}
    (hempty : l.session.writes = [])
    (h : ∀ row l' s', C.Along p l s [] l' s' → C.inv s' → row.id = k →
      (∀ {ws l'' s''}, C.Along p l' s' ws l'' s'' →
        GotComment (C.Past p s'') O k row) →
      C.wp p Q E (f row) none l' s')
    (hE : ∀ e l' s', Grows l l' [] → E e l' s') :
    C.wp p Q E (get O k >>= f) none l s := by
  simp only [get, bind_assoc]
  refine wp_select_bind fun s₁ h₁ hinv₁ => ?_
  refine wp_scalarOneOrNone_bind fun o ho => ?_
  refine wp_require_bind (fun row hrow => ?_)
    fun _ s' => hE _ _ s' (Grows.observe l _)
  have hmem : row ∈ o.toList := by simp [hrow]
  rw [← ho, List.mem_filter, decide_eq_true_eq, view_of_writes_nil hempty]
    at hmem
  obtain ⟨hstored, hid, horganization⟩ := hmem
  refine h row _ s₁ (Along.observe h₁ _) hinv₁ hid fun ha => ?_
  refine ⟨horganization, s₁.store, ha.past_nil hinv₁, ?_⟩
  rw [← hid]
  exact Relation.lookup_key hstored

end Rules

/-! ## The endpoints -/

section Endpoints

variable {C : Contract schema} {p : Pid} {s : Shared schema} {O : Uuid}
  {user : User}

/-- The contract accepts what `request` commits. -/
abbrev Allows (C : Contract schema) (request : Request) (p : Pid) : Prop :=
  C.Accepts p fun past c => Transacts past request c

theorem requests_create {i : Uuid} {body : CommentCreate}
    (hallows : Allows C (.create O i user body) p) :
    Requests C p (create O i user body) {} s := by
  simp only [create]
  refine wp_permitted_bind (by simp) (fun m l₁ s₁ ha₁ _ _ hpermitted => ?_)
    fun _ _ _ hg => unwritten_of_grows hg
  refine wp_getIssue_bind ha₁.writes (fun x l₂ s₂ ha₂ _ _ _ hgot => ?_)
    fun _ _ _ hg => unwritten_of_grows (ha₁.grows.trans hg)
  refine wp_freshId_bind fun id s₃ h₃ _ _ => ?_
  refine wp_now_bind fun createdAt s₄ h₄ _ => ?_
  have ha₄ : C.Along p l₂ s₂ [] _ s₄ := (Along.draw h₃ id).trans
    (Along.observe h₄ (.answered Call.now createdAt))
  have ha₁₄ := (ha₁.trans ha₂).trans ha₄
  refine wp_insertOrHalt_bind fun l₅ s₅ h₅ _ hnone hg₅ hlocks => ?_
  have ha₅ : C.Along p _ s₄ _ l₅ s₅ := ⟨hg₅, h₅⟩
  refine requests_commit_bind hallows (ha₁₄.trans ha₅)
    (fun s' c h' _ hc hwrites => ?_) fun _ _ => requests_ret _
  have ha' := (Along.refl l₅ s₅).wait h'
  have hend := ha₄.trans (ha₅.trans ha')
  have hnew := Store.lookup_of_conflict_none hnone
  rw [view_of_writes_nil ha₁₄.writes] at hnew
  exact .created m s₂.store x id createdAt (hpermitted (ha₂.trans hend) rfl)
    (hgot hend hc)
    ((ha'.committed hc (hlocks _ List.mem_cons_self)).trans hnew) hwrites

theorem requests_update {k : Uuid} {body : CommentCreate}
    (hallows : Allows C (.update O k user body) p) :
    Requests C p (update O k user body) {} s := by
  simp only [update]
  refine wp_member_bind (fun m l₁ s₁ ha₁ _ hpermitted => ?_)
    fun _ _ _ hg => unwritten_of_grows hg
  refine wp_getComment_bind ha₁.writes (fun row l₂ s₂ ha₂ _ hid hgot => ?_)
    fun _ _ _ hg => unwritten_of_grows (ha₁.grows.trans hg)
  refine wp_ensure_bind (fun hauthor => ?_)
    fun _ _ => unwritten_of_grows (ha₁.trans ha₂).grows
  refine wp_now_bind fun time s₃ h₃ _ => ?_
  have ha₃ : C.Along p l₂ s₂ [] _ s₃ :=
    Along.observe h₃ (.answered Call.now time)
  have ha₁₃ := (ha₁.trans ha₂).trans ha₃
  rw [hid]
  refine wp_updateKey_bind fun l₄ s₄ s₅ r h₄ _ h₅ _ hlook _ hg₄ hlock => ?_
  have ha₄ : C.Along p _ s₃ _ l₄ s₅ := ⟨hg₄, h₄.trans h₅⟩
  refine requests_commit_bind hallows (ha₁₃.trans ha₄)
    (fun s' c h' _ hc hwrites => ?_) fun _ _ => requests_ret _
  have ha' := (Along.refl l₄ s₅).wait h'
  have hend := ha₃.trans (ha₄.trans ha')
  rw [view_of_writes_nil ha₁₃.writes] at hlook
  exact .updated m row r time (hpermitted (ha₂.trans hend) rfl) (hgot hend)
    (of_decide_eq_true hauthor) ((ha'.committed hc hlock).trans hlook) hwrites

theorem requests_delete {k : Uuid} (hallows : Allows C (.delete O k user) p) :
    Requests C p (delete O k user) {} s := by
  simp only [delete]
  refine wp_member_bind (fun m l₁ s₁ ha₁ _ hpermitted => ?_)
    fun _ _ _ hg => unwritten_of_grows hg
  refine wp_getComment_bind ha₁.writes (fun row l₂ s₂ ha₂ _ hid hgot => ?_)
    fun _ _ _ hg => unwritten_of_grows (ha₁.grows.trans hg)
  have ha₁₂ := ha₁.trans ha₂
  refine wp_ensure_bind (fun hallowed => ?_)
    fun _ _ => unwritten_of_grows ha₁₂.grows
  rw [hid]
  refine wp_deleteKey_bind ?_ ?_
  · intro l₃ s₃ h₃ hinv₃ hgone hg₃
    have ha₃ : C.Along p l₂ s₂ [] l₃ s₃ := ⟨hg₃, h₃⟩
    refine requests_commit hallows (ha₁₂.trans ha₃)
      fun s' c h' _ hc hwrites => ?_
    have ha' := (Along.refl l₃ s₃).wait h'
    have hend := ha₃.trans ha'
    rw [view_of_writes_nil ha₁₂.writes] at hgone
    exact .missed m row s₃.store (hpermitted (ha₂.trans hend) rfl) (hgot hend)
      (ha'.past_nil hinv₃) hgone hwrites
  · intro l₃ s₃ s₄ r h₃ _ h₄ _ hlook hg₃ hlock
    have ha₃ : C.Along p l₂ s₂ _ l₃ s₄ := ⟨hg₃, h₃.trans h₄⟩
    refine requests_commit hallows (ha₁₂.trans ha₃)
      fun s' c h' _ hc hwrites => ?_
    have ha' := (Along.refl l₃ s₄).wait h'
    have hend := ha₃.trans ha'
    rw [view_of_writes_nil ha₁₂.writes] at hlook
    exact .deleted m row r (hpermitted (ha₂.trans hend) rfl) (hgot hend)
      (of_decide_eq_true hallowed) ((ha'.committed hc hlock).trans hlook)
      hwrites

/-- All requests, under any contract that accepts their transactions. -/
theorem requests_serve {request : Request} (hallows : Allows C request p)
    (hinv : C.inv s) : Requests C p (serve request) {} s := by
  cases request with
  | create O i user body => exact requests_map (requests_create hallows) hinv
  | update O k user body => exact requests_map (requests_update hallows) hinv
  | delete O k user => exact requests_map (requests_delete hallows) hinv

end Endpoints

end Workstream.Comments
