import Dagayn.WatchDaemon
import Mathlib

/-!
# One watcher for each alias

The invariant of the daemon's maps and processes (`Owned`): a live watcher is the entry of
its alias in `_children`, or the process that is being terminated. Which statement a locked
block has come to says what the maps may lack for the moment. With timely joins nobody is
left to start anything once `stop` has the lock.
-/

namespace Dagayn

namespace Daemon

/-- The maps and the processes, before the statement `op` of a locked block. -/
structure Owned (t : Tables) (op : Option Op) : Prop where
  live_lt : ∀ p child, t.live.lookup p = some child → p < t.next
  children_lt : ∀ a p, t.children.lookup a = some p → p < t.next
  kind : ∀ a p child, t.children.lookup a = some p → t.live.lookup p = some child →
    ∃ r, child = .watch r ∧ r.aliasName = a
  owned : ∀ p r, t.live.lookup p = some (.watch r) →
    t.children.lookup r.aliasName = some p ∨ op = some (.terminate p)
  sole : ∀ p r q, op = some (.terminate p) → t.live.lookup p = some (.watch r) →
    t.children.lookup r.aliasName = some q → q = p
  tracked : ∀ a p, t.children.lookup a = some p →
    (t.currentRepos.lookup a).isSome = true ∨ ∃ r, op = some (.record r) ∧ r.aliasName = a
  right : ∀ p r, t.live.lookup p = some (.watch r) → t.children.lookup r.aliasName = some p →
    t.currentRepos.lookup r.aliasName = some r ∨ op = some (.record r)
  recorded : ∀ p r r', op = some (.record r') → t.live.lookup p = some (.watch r) →
    t.children.lookup r.aliasName = some p → r.aliasName = r'.aliasName → r = r'
  keyed : ∀ a r, t.currentRepos.lookup a = some r → r.aliasName = a

/-- A statement before which the maps lack nothing. -/
def Plain (op : Option Op) : Prop :=
  (∀ p, op ≠ some (.terminate p)) ∧ ∀ r, op ≠ some (.record r)

theorem plain_none : Plain none := ⟨nofun, nofun⟩

section Owned

variable {t : Tables} {op : Option Op}

theorem Owned.plain (h : Owned t op) (hop : Plain op) (op' : Option Op) (hop' : Plain op') :
    Owned t op' where
  live_lt := h.live_lt
  children_lt := h.children_lt
  kind := h.kind
  owned _ _ hp := .inl ((h.owned _ _ hp).resolve_right (hop.1 _))
  sole p _ _ heq := absurd heq (hop'.1 p)
  tracked a p ha := .inl ((h.tracked a p ha).resolve_right fun ⟨r, hr, _⟩ => hop.2 r hr)
  right _ r hp ha := .inl ((h.right _ r hp ha).resolve_right (hop.2 r))
  recorded _ _ r' heq := absurd heq (hop'.2 r')
  keyed := h.keyed

theorem Owned.entry (h : Owned t op) (hop : Plain op) {p : Nat} {r : WatchRepo}
    (hp : t.live.lookup p = some (.watch r)) : t.children.lookup r.aliasName = some p :=
  (h.owned p r hp).resolve_right (hop.1 p)

theorem Owned.known (h : Owned t op) (hop : Plain op) {a : String} {p : Nat}
    (ha : t.children.lookup a = some p) : (t.currentRepos.lookup a).isSome = true :=
  (h.tracked a p ha).resolve_right fun ⟨r, hr, _⟩ => hop.2 r hr

theorem Owned.current (h : Owned t op) (hop : Plain op) {p : Nat} {r : WatchRepo}
    (hp : t.live.lookup p = some (.watch r)) (ha : t.children.lookup r.aliasName = some p) :
    t.currentRepos.lookup r.aliasName = some r :=
  (h.right p r hp ha).resolve_right (hop.2 r)

theorem Owned.atMostOne (h : Owned t op) {p q : Nat} {r r' : WatchRepo}
    (hp : t.live.lookup p = some (.watch r)) (hq : t.live.lookup q = some (.watch r'))
    (ha : r.aliasName = r'.aliasName) : p = q := by
  rcases h.owned p r hp with hchild | hterm
  · rcases h.owned q r' hq with hchild' | hterm'
    · rw [ha, hchild'] at hchild
      exact (Option.some.inj hchild).symm
    · exact h.sole q r' p hterm' hq (ha ▸ hchild)
  · rcases h.owned q r' hq with hchild' | hterm'
    · exact (h.sole p r q hterm hp (ha ▸ hchild')).symm
    · rw [hterm] at hterm'
      cases hterm'
      rfl

theorem Owned.withLost (h : Owned t op) (lost : List String) : Owned { t with lost := lost } op :=
  { h with }

@[simp] theorem exit_children (t : Tables) (pid : Nat) : (t.exit pid).children = t.children := by
  unfold Tables.exit
  split <;> rfl

@[simp] theorem exit_currentRepos (t : Tables) (pid : Nat) :
    (t.exit pid).currentRepos = t.currentRepos := by
  unfold Tables.exit
  split <;> rfl

@[simp] theorem exit_next (t : Tables) (pid : Nat) : (t.exit pid).next = t.next := by
  unfold Tables.exit
  split <;> rfl

theorem lookup_of_exit {pid p : Nat} {child : Child}
    (h : (t.exit pid).live.lookup p = some child) : t.live.lookup p = some child := by
  unfold Tables.exit at h
  split at h
  · exact h
  all_goals exact (Dict.lookup_of_erase h).2

theorem exit_none {pid p : Nat} (h : t.live.lookup p = none) :
    (t.exit pid).live.lookup p = none := by
  by_contra hsome
  obtain ⟨child, hchild⟩ := Option.ne_none_iff_exists'.mp hsome
  rw [lookup_of_exit hchild] at h
  cases h

theorem Owned.exit (h : Owned t op) (pid : Nat) : Owned (t.exit pid) op := by
  constructor
  · exact fun p child hp => by simpa using h.live_lt p child (lookup_of_exit hp)
  · simpa using h.children_lt
  · simpa using fun a p child ha hp => h.kind a p child ha (lookup_of_exit hp)
  · simpa using fun p r hp => h.owned p r (lookup_of_exit hp)
  · simpa using fun p r q heq hp => h.sole p r q heq (lookup_of_exit hp)
  · simpa using h.tracked
  · simpa using fun p r hp => h.right p r (lookup_of_exit hp)
  · simpa using fun p r r' heq hp => h.recorded p r r' heq (lookup_of_exit hp)
  · simpa using h.keyed

theorem Owned.build (h : Owned t op) (repo : WatchRepo) :
    Owned { t with live := t.live.insert t.next (.build repo), next := t.next + 1 } op := by
  have hlive : ∀ p r, (AList.insert t.next (Child.build repo) t.live).lookup p =
      some (.watch r) → t.live.lookup p = some (.watch r) := fun p r hp =>
    ((Dict.lookup_of_insert hp).resolve_left (by simp)).2
  refine ⟨fun p child hp => ?_, fun a p ha => Nat.lt_succ_of_lt (h.children_lt a p ha),
    fun a p child ha hp => ?_, fun p r hp => h.owned p r (hlive p r hp),
    fun p r q heq hp => h.sole p r q heq (hlive p r hp), h.tracked,
    fun p r hp => h.right p r (hlive p r hp),
    fun p r r' heq hp => h.recorded p r r' heq (hlive p r hp), h.keyed⟩
  · rcases Dict.lookup_of_insert hp with ⟨rfl, -⟩ | ⟨-, hp⟩
    · exact Nat.lt_succ_self _
    · exact Nat.lt_succ_of_lt (h.live_lt p child hp)
  · rcases Dict.lookup_of_insert hp with ⟨rfl, -⟩ | ⟨-, hp⟩
    · exact absurd (h.children_lt a _ ha) (Nat.lt_irrefl _)
    · exact h.kind a p child ha hp

theorem Owned.pop_dead (h : Owned t op) (hop : Plain op) {a : String}
    (hdead : ∀ p, t.children.lookup a = some p → t.live.lookup p = none) :
    Owned { t with children := t.children.erase a } none := by
  have hchild : ∀ b p, (AList.erase a t.children).lookup b = some p →
      t.children.lookup b = some p := fun b p hb => (Dict.lookup_of_erase hb).2
  have h := h.plain hop none plain_none
  refine ⟨h.live_lt, fun b p hb => h.children_lt b p (hchild b p hb),
    fun b p child hb => h.kind b p child (hchild b p hb), fun p r hp => .inl ?_, nofun,
    fun b p hb => h.tracked b p (hchild b p hb),
    fun p r hp hb => h.right p r hp (hchild _ p hb), nofun, h.keyed⟩
  have hb := h.entry plain_none hp
  simp only [Dict.lookup_erase_ite]
  split
  · rename_i heq
    rw [hdead p (heq ▸ hb)] at hp
    cases hp
  · exact hb

theorem Owned.pop (h : Owned t op) (hop : Plain op) {a : String} {pid : Nat}
    (hpid : t.children.lookup a = some pid) :
    Owned { t with children := t.children.erase a } (some (.terminate pid)) := by
  have hchild : ∀ b p, (AList.erase a t.children).lookup b = some p →
      t.children.lookup b = some p := fun b p hb => (Dict.lookup_of_erase hb).2
  have h := h.plain hop none plain_none
  refine ⟨h.live_lt, fun b p hb => h.children_lt b p (hchild b p hb),
    fun b p child hb => h.kind b p child (hchild b p hb), fun p r hp => ?_,
    fun p r q heq hp hb => ?_, fun b p hb => .inl (h.known plain_none (hchild b p hb)),
    fun p r hp hb => .inl (h.current plain_none hp (hchild _ p hb)), nofun, h.keyed⟩
  · have hb := h.entry plain_none hp
    simp only [Dict.lookup_erase_ite]
    split
    · rename_i heq
      rw [heq, hpid] at hb
      obtain rfl := Option.some.inj hb
      exact .inr rfl
    · exact .inl hb
  · obtain rfl : pid = p := by
      cases heq
      rfl
    obtain ⟨r', hr', ha⟩ := h.kind a pid _ hpid hp
    cases hr'
    exact absurd ha (Dict.lookup_of_erase hb).1

theorem Owned.terminate {pid : Nat} (h : Owned t (some (.terminate pid))) :
    Owned { t with live := t.live.erase pid } none := by
  have hlive : ∀ p child, (AList.erase pid t.live).lookup p = some child →
      p ≠ pid ∧ t.live.lookup p = some child := fun p child hp => Dict.lookup_of_erase hp
  refine ⟨fun p child hp => h.live_lt p child (hlive p child hp).2, h.children_lt,
    fun a p child ha hp => h.kind a p child ha (hlive p child hp).2, fun p r hp => .inl ?_, nofun,
    fun a p ha => .inl ((h.tracked a p ha).resolve_right fun ⟨_, hr, _⟩ => nomatch hr),
    fun p r hp ha => .inl ((h.right p r (hlive p _ hp).2 ha).resolve_right nofun), nofun, h.keyed⟩
  obtain ⟨hne, hp⟩ := hlive p _ hp
  refine (h.owned p r hp).resolve_right fun heq => hne ?_
  cases heq
  rfl

theorem Owned.forget (h : Owned t op) (hop : Plain op) {a : String}
    (hnone : t.children.lookup a = none) :
    Owned { t with currentRepos := t.currentRepos.erase a } none := by
  have h := h.plain hop none plain_none
  have hkeep : ∀ b p, t.children.lookup b = some p →
      (AList.erase a t.currentRepos).lookup b = t.currentRepos.lookup b := by
    intro b p hb
    rw [Dict.lookup_erase_ite, if_neg]
    rintro rfl
    rw [hnone] at hb
    cases hb
  refine ⟨h.live_lt, h.children_lt, h.kind, h.owned, nofun, fun b p hb => ?_, fun p r hp hb => ?_,
    nofun, fun b r hb => ?_⟩
  · rw [hkeep b p hb]
    exact h.tracked b p hb
  · rw [hkeep _ p hb]
    exact h.right p r hp hb
  · exact h.keyed b r (Dict.lookup_of_erase hb).2

theorem Owned.start (h : Owned t op) (hop : Plain op) {repo : WatchRepo}
    (hnone : t.children.lookup repo.aliasName = none) (op' : Option Op)
    (hterm : ∀ p, op' ≠ some (.terminate p)) (hrec : ∀ r, op' = some (.record r) → r = repo)
    (hcurrent : t.currentRepos.lookup repo.aliasName = some repo ∨ op' = some (.record repo)) :
    Owned (t.startWatcher repo .ok) op' := by
  have h := h.plain hop none plain_none
  have hfresh : ∀ a p, t.children.lookup a = some p → p ≠ t.next := fun a p ha =>
    Nat.ne_of_lt (h.children_lt a p ha)
  have hlive : ∀ p child, (AList.insert t.next (Child.watch repo) t.live).lookup p = some child →
      (p = t.next ∧ child = .watch repo) ∨ (p ≠ t.next ∧ t.live.lookup p = some child) :=
    fun p child hp => Dict.lookup_of_insert hp
  have hchild : ∀ a p, (AList.insert repo.aliasName t.next t.children).lookup a = some p →
      (a = repo.aliasName ∧ p = t.next) ∨ (a ≠ repo.aliasName ∧ t.children.lookup a = some p) :=
    fun a p ha => Dict.lookup_of_insert ha
  constructor
  · intro p child hp
    simp only [Tables.startWatcher] at hp ⊢
    rcases hlive p child hp with ⟨rfl, -⟩ | ⟨-, hp⟩
    · exact Nat.lt_succ_self _
    · exact Nat.lt_succ_of_lt (h.live_lt p child hp)
  · intro a p ha
    simp only [Tables.startWatcher] at ha ⊢
    rcases hchild a p ha with ⟨-, rfl⟩ | ⟨-, ha⟩
    · exact Nat.lt_succ_self _
    · exact Nat.lt_succ_of_lt (h.children_lt a p ha)
  · intro a p child ha hp
    rcases hchild a p ha with ⟨rfl, rfl⟩ | ⟨-, ha⟩
    · rcases hlive _ child hp with ⟨-, rfl⟩ | ⟨hne, -⟩
      · exact ⟨repo, rfl, rfl⟩
      · exact absurd rfl hne
    · rcases hlive p child hp with ⟨rfl, -⟩ | ⟨-, hp⟩
      · exact absurd rfl (hfresh a _ ha)
      · exact h.kind a p child ha hp
  · intro p r hp
    left
    simp only [Tables.startWatcher, Dict.lookup_insert_ite]
    rcases hlive p _ hp with ⟨rfl, heq⟩ | ⟨-, hp⟩
    · cases heq
      rw [if_pos rfl]
    · have ha := h.entry plain_none hp
      rw [if_neg, ha]
      intro heq
      rw [heq, hnone] at ha
      cases ha
  · exact fun p r q heq => absurd heq (hterm p)
  · intro a p ha
    rcases hchild a p ha with ⟨rfl, -⟩ | ⟨-, ha⟩
    · rcases hcurrent with hcurrent | hop'
      · exact .inl (Option.isSome_iff_exists.mpr ⟨repo, hcurrent⟩)
      · exact .inr ⟨repo, hop', rfl⟩
    · exact .inl (h.known plain_none ha)
  · intro p r hp ha
    rcases hlive p _ hp with ⟨-, heq⟩ | ⟨hne, hp⟩
    · cases heq
      exact hcurrent
    · rcases hchild _ p ha with ⟨-, heq⟩ | ⟨-, ha⟩
      · exact absurd heq hne
      · exact .inl (h.current plain_none hp ha)
  · intro p r r' hop' hp ha hname
    obtain rfl := hrec r' hop'
    rcases hchild _ p ha with ⟨-, rfl⟩ | ⟨hne, -⟩
    · rcases hlive _ _ hp with ⟨-, heq⟩ | ⟨hne, -⟩
      · cases heq
        rfl
      · exact absurd rfl hne
    · exact absurd hname hne
  · exact h.keyed

theorem Owned.record {repo : WatchRepo} (h : Owned t (some (.record repo))) :
    Owned { t with currentRepos := t.currentRepos.insert repo.aliasName repo } none := by
  refine ⟨h.live_lt, h.children_lt, h.kind,
    fun p r hp => .inl ((h.owned p r hp).resolve_right nofun), nofun, fun a p ha => .inl ?_,
    fun p r hp ha => .inl ?_, nofun, fun a r ha => ?_⟩
  · simp only [Dict.lookup_insert_ite]
    split
    · rfl
    · rename_i hne
      refine (h.tracked a p ha).resolve_right fun ⟨r, hr, hname⟩ => hne ?_
      cases hr
      exact hname.symm
  · simp only [Dict.lookup_insert_ite]
    split
    · rename_i heq
      rw [h.recorded p r repo rfl hp ha heq]
    · rename_i hne
      refine (h.right p r hp ha).resolve_right fun heq => hne ?_
      cases heq
      rfl
  · rcases Dict.lookup_of_insert ha with ⟨rfl, rfl⟩ | ⟨-, ha⟩
    · rfl
    · exact h.keyed a r ha

theorem Owned.of_empty (h : Owned t op) (hlive : ∀ p, t.live.lookup p = none) :
    Owned { t with children := ∅ } none where
  live_lt := h.live_lt
  children_lt := by simp
  kind := by simp
  owned p r hp := by simp [hlive p] at hp
  sole := nofun
  tracked := by simp
  right p r hp := by simp [hlive p] at hp
  recorded := nofun
  keyed := h.keyed

end Owned

/-! ## Which repositories have their watcher -/

/-- A repository has its watcher, unless it is lost, or its alias is the one in work. -/
def Present (t : Tables) (busy : Option String) : Prop :=
  ∀ a r, t.currentRepos.lookup a = some r → busy = some a ∨ a ∈ t.lost ∨
    ∃ p, t.children.lookup a = some p ∧ t.live.lookup p = some (.watch r)

/-- The watcher of the repository runs, or it is lost. -/
def Ready (t : Tables) (repo : WatchRepo) : Prop :=
  repo.aliasName ∈ t.lost ∨
    ∃ p, t.children.lookup repo.aliasName = some p ∧ t.live.lookup p = some (.watch repo)

section Present

variable {t : Tables} {op : Option Op} {busy : Option String}

theorem Ready.exit {repo : WatchRepo} (h : Ready t repo) (pid : Nat) : Ready (t.exit pid) repo := by
  unfold Tables.exit
  split
  · exact h
  · rename_i other hother
    rcases h with hlost | ⟨p, ha, hp⟩
    · exact .inl (List.mem_cons_of_mem _ hlost)
    · by_cases heq : p = pid
      · subst heq
        rw [hp] at hother
        cases hother
        exact .inl List.mem_cons_self
      · exact .inr ⟨p, ha, by rw [AList.lookup_erase_ne heq, hp]⟩
  · rename_i other hother
    rcases h with hlost | ⟨p, ha, hp⟩
    · exact .inl hlost
    · refine .inr ⟨p, ha, ?_⟩
      rw [AList.lookup_erase_ne, hp]
      rintro rfl
      rw [hp] at hother
      cases hother

theorem Present.ready (h : Present t busy) (howned : Owned t op) {a : String} {r : WatchRepo}
    (ha : t.currentRepos.lookup a = some r) : busy = some a ∨ Ready t r := by
  have hname := howned.keyed a r ha
  exact (h a r ha).imp_right fun h => by rwa [Ready, hname]

theorem present_of_ready (howned : Owned t op)
    (h : ∀ a r, t.currentRepos.lookup a = some r → busy = some a ∨ Ready t r) :
    Present t busy := by
  intro a r ha
  have hname := howned.keyed a r ha
  exact (h a r ha).imp_right fun h => by rwa [Ready, hname] at h

theorem Present.exit (h : Present t busy) (howned : Owned t op) (pid : Nat) :
    Present (t.exit pid) busy := by
  refine present_of_ready (howned.exit pid) fun a r ha => ?_
  rw [exit_currentRepos] at ha
  exact (h.ready howned ha).imp_right fun hready => hready.exit pid

theorem Present.build (h : Present t busy) (howned : Owned t op) (repo : WatchRepo) :
    Present { t with live := t.live.insert t.next (.build repo), next := t.next + 1 } busy := by
  intro a r ha
  refine (h a r ha).imp_right fun h => h.imp_right fun ⟨p, hchild, hp⟩ => ⟨p, hchild, ?_⟩
  simp only [Dict.lookup_insert_ite]
  rw [if_neg (Nat.ne_of_lt (howned.children_lt a p hchild)), hp]

theorem Present.pop {a : String} (h : Present t (some a)) :
    Present { t with children := t.children.erase a } (some a) := by
  intro b r hb
  by_cases heq : b = a
  · exact .inl (congrArg some heq.symm)
  · refine (h b r hb).imp_right fun h => h.imp_right fun ⟨p, hchild, hp⟩ => ⟨p, ?_, hp⟩
    simp only [AList.lookup_erase_ne heq, hchild]

theorem Present.pop_dead (h : Present t busy) {a : String}
    (hdead : ∀ p, t.children.lookup a = some p → t.live.lookup p = none) :
    Present { t with children := t.children.erase a } busy := by
  intro b r hb
  refine (h b r hb).imp_right fun h => h.imp_right fun ⟨p, hchild, hp⟩ => ⟨p, ?_, hp⟩
  simp only [Dict.lookup_erase_ite]
  split
  · rename_i heq
    rw [hdead p (heq ▸ hchild)] at hp
    cases hp
  · exact hchild

theorem Present.terminate {a : String} (h : Present t (some a)) (howned : Owned t op) {pid : Nat}
    (hpid : ∀ r, t.live.lookup pid = some (.watch r) → r.aliasName = a) :
    Present { t with live := t.live.erase pid } (some a) := by
  intro b r hb
  by_cases heq : b = a
  · exact .inl (congrArg some heq.symm)
  · refine (h b r hb).imp_right fun h => h.imp_right fun ⟨p, hchild, hp⟩ => ⟨p, hchild, ?_⟩
    simp only
    rw [AList.lookup_erase_ne, hp]
    rintro rfl
    exact heq ((howned.keyed b r hb).symm.trans (hpid r hp))

theorem Present.forget {a : String} (h : Present t (some a)) :
    Present { t with currentRepos := t.currentRepos.erase a } none := by
  intro b r hb
  obtain ⟨hne, hb⟩ := Dict.lookup_of_erase hb
  exact .inr ((h b r hb).resolve_left fun heq => hne (Option.some.inj heq).symm)

theorem Present.mono {lost : List String} (h : Present t busy) (hlost : t.lost ⊆ lost) :
    Present { t with lost := lost } busy := fun a r ha =>
  (h a r ha).imp_right fun h => h.imp_left fun hmem => hlost hmem

theorem Present.start (h : Present t busy) (howned : Owned t op) {repo : WatchRepo}
    (hwork : busy = some repo.aliasName ∨ t.currentRepos.lookup repo.aliasName = some repo) :
    Present (t.startWatcher repo .ok) busy := by
  intro b r hb
  by_cases heq : b = repo.aliasName
  · rcases hwork with hbusy | hcurrent
    · exact .inl (heq ▸ hbusy)
    · have hr : r = repo := by
        have hb' : t.currentRepos.lookup b = some r := hb
        rw [heq, hcurrent] at hb'
        exact (Option.some.inj hb').symm
      refine .inr (.inr ⟨t.next, ?_, ?_⟩)
      · simp only [Tables.startWatcher, Dict.lookup_insert_ite, if_pos heq]
      · simp [Tables.startWatcher, hr]
  · refine (h b r hb).imp_right fun h => h.imp (fun hlost => ?_) fun ⟨p, hchild, hp⟩ => ⟨p, ?_, ?_⟩
    · exact List.mem_filter.mpr ⟨hlost, by simpa using heq⟩
    · simp only [Tables.startWatcher, Dict.lookup_insert_ite, if_neg heq, hchild]
    · simp only [Tables.startWatcher, Dict.lookup_insert_ite]
      rw [if_neg (Nat.ne_of_lt (howned.children_lt b p hchild)), hp]

theorem ready_start (t : Tables) (repo : WatchRepo) (outcome : Outcome) :
    Ready (t.startWatcher repo outcome) repo := by
  cases outcome with
  | ok => exact .inr ⟨t.next, by simp [Tables.startWatcher], by simp [Tables.startWatcher]⟩
  | failed => exact .inl List.mem_cons_self
  | raised => exact .inl List.mem_cons_self

theorem Present.record {repo : WatchRepo} (h : Present t (some repo.aliasName))
    (hready : Ready t repo) :
    Present { t with currentRepos := t.currentRepos.insert repo.aliasName repo } none := by
  intro b r hb
  rcases Dict.lookup_of_insert hb with ⟨rfl, rfl⟩ | ⟨hne, hb⟩
  · exact .inr hready
  · exact .inr ((h b r hb).resolve_left fun heq => hne (Option.some.inj heq).symm)

end Present

/-! ## Locked blocks -/

def Turn.aliasName : Turn → String
  | .remove a => a
  | .add repo => repo.aliasName
  | .update repo => repo.aliasName
  | .check repo => repo.aliasName
  | _ => ""

/-- The alias that a turn of `reconcile` is at work on. -/
def busyName (now : List Op) : Option String :=
  match now.getLast? with
  | some (.forget a) => some a
  | some (.record repo) => some repo.aliasName
  | _ => none

/-- What is left of a turn of `reconcile`. -/
inductive WatcherNow (t : Tables) : List Op → Prop
  | done : WatcherNow t []
  | popRemove (a : String) : WatcherNow t [.pop a, .forget a]
  | terminateRemove (p : Nat) (a : String) :
      t.children.lookup a = none →
        (∀ r, t.live.lookup p = some (.watch r) → r.aliasName = a) →
        WatcherNow t [.terminate p, .forget a]
  | forget (a : String) : t.children.lookup a = none → WatcherNow t [.forget a]
  | popUpdate (repo : WatchRepo) :
      WatcherNow t [.pop repo.aliasName, .start repo, .record repo]
  | terminateUpdate (p : Nat) (repo : WatchRepo) :
      t.children.lookup repo.aliasName = none →
        (∀ r, t.live.lookup p = some (.watch r) → r.aliasName = repo.aliasName) →
        WatcherNow t [.terminate p, .start repo, .record repo]
  | start (repo : WatchRepo) :
      t.children.lookup repo.aliasName = none → WatcherNow t [.start repo, .record repo]
  | record (repo : WatchRepo) : Ready t repo → WatcherNow t [.record repo]

/-- The turns that are left to `reconcile`: each alias once, and a repository is added only
if its alias is not in use. -/
structure Plan (t : Tables) (busy : Option String) (turns : List Turn) : Prop where
  distinct : (busy.toList ++ turns.map Turn.aliasName).Nodup
  fresh : ∀ repo, .add repo ∈ turns → t.currentRepos.lookup repo.aliasName = none
  kinds : ∀ turn ∈ turns, (∃ a, turn = .remove a) ∨ (∃ repo, turn = .add repo) ∨
    ∃ repo, turn = .update repo

/-- What is left of a turn of `_check_health`. -/
inductive HealthNow (t : Tables) : List Op → Prop
  | done : HealthNow t []
  | check (repo : WatchRepo) :
      t.currentRepos.lookup repo.aliasName = some repo → HealthNow t [.check repo]
  | start (repo : WatchRepo) :
      t.currentRepos.lookup repo.aliasName = some repo →
        t.children.lookup repo.aliasName = none → HealthNow t [.start repo]

/-- What is left of the block of `stop`: every live process is still to be terminated. -/
inductive MainNow (t : Tables) : List Op → List Turn → Prop
  | turns (pids : List Nat) :
      (∀ p child, t.live.lookup p = some child → p ∈ pids) →
        MainNow t [] (pids.map .kill ++ [.clear])
  | terminate (pid : Nat) (pids : List Nat) :
      (∀ p child, t.live.lookup p = some child → p = pid ∨ p ∈ pids) →
        MainNow t [.terminate pid] (pids.map .kill ++ [.clear])
  | clear : (∀ p, t.live.lookup p = none) → MainNow t [.clear] []
  | done : (∀ p, t.live.lookup p = none) → (∀ a, t.children.lookup a = none) → MainNow t [] []

def BlockOk (t : Tables) (b : Block) : Prop :=
  match b.thread with
  | .watcher => WatcherNow t b.now ∧ Plan t (busyName b.now) b.turns
  | .health => HealthNow t b.now ∧ ∀ turn ∈ b.turns, ∃ repo, turn = .check repo ∧
      t.currentRepos.lookup repo.aliasName = some repo
  | .main => MainNow t b.now b.turns

/-! ## The invariant -/

namespace State

/-- The statement that the locked block has come to. -/
def nextOp (s : State) : Option Op := s.held.bind fun b => b.now.head?

/-- The alias that `reconcile` is at work on under the lock. -/
def busy (s : State) : Option String :=
  match s.held with
  | some ⟨.watcher, now, _⟩ => busyName now
  | _ => none

end State

def MainPc.pastConfig : MainPc → Bool
  | .running | .stopConfig => false
  | _ => true

def MainPc.pastHealth : MainPc → Bool
  | .running | .stopConfig | .stopHealth => false
  | _ => true

def MainPc.beforeLock : MainPc → Bool
  | .running | .stopConfig | .stopHealth | .waiting => true
  | _ => false

/-- What `reconcile` has planned before it has the lock. -/
def PlanPc (t : Tables) : WatcherPc → Prop
  | .compare desired current =>
      (∀ a r, desired.lookup a = some r → r.aliasName = a) ∧ current.Nodup ∧
        ∀ a, (t.currentRepos.lookup a).isSome = true → a ∈ current
  | .build turns _ => Plan t none turns
  | .building turns _ _ => Plan t none turns
  | _ => True

def Locked (s : State) : Thread → Prop
  | .watcher => s.watcher = .locked
  | .health => s.health = .locked
  | .main => s.main = .locked

structure Inv (s : State) : Prop where
  owned : Owned s.tables s.nextOp
  builds : ∀ p repo, s.tables.live.lookup p = some (.build repo) →
    ∃ turns builds, s.watcher = .building turns builds p
  block : ∀ b, s.held = some b → BlockOk s.tables b
  locked : ∀ b, s.held = some b → Locked s b.thread
  plan : PlanPc s.tables s.watcher
  joinedConfig : s.main.pastConfig = true → s.watcher = .ended
  joinedHealth : s.main.pastHealth = true → s.health = .ended
  present : s.main.beforeLock = true → Present s.tables s.busy
  emptied : s.main = .clearing ∨ s.main = .returned →
    (∀ p, s.tables.live.lookup p = none) ∧ ∀ a, s.tables.children.lookup a = none
  forgotten : s.main = .returned → ∀ a, s.tables.currentRepos.lookup a = none

theorem Inv.no_build {s : State} (h : Inv s)
    (hpc : ∀ turns builds p, s.watcher ≠ .building turns builds p) (p : Nat)
    (repo : WatchRepo) : s.tables.live.lookup p ≠ some (.build repo) := fun hp => by
  obtain ⟨turns, builds, hbuilding⟩ := h.builds p repo hp
  exact hpc turns builds p hbuilding

theorem Inv.safe {s : State} (h : Inv s) : Safe s where
  atMostOne p q repo repo' := h.owned.atMostOne
  onlyCurrent := by
    rintro ⟨hheld, hwatcher, -, -⟩ p child hp
    have hop : Plain s.nextOp := by
      rw [State.nextOp, hheld]
      exact plain_none
    cases child with
    | build repo =>
        refine absurd hp (h.no_build ?_ p repo)
        rcases hwatcher with hidle | hended
        · rw [hidle]
          nofun
        · rw [hended]
          nofun
    | watch repo =>
        have hchild := h.owned.entry hop hp
        exact ⟨repo, rfl, h.owned.current hop hp hchild, hchild⟩
  allCurrent := by
    rintro ⟨hheld, -, -, hmain⟩ a repo ha
    have hbusy : s.busy = none := by rw [State.busy, hheld]
    rcases hmain with hmain | hmain
    · have hpresent := h.present (by rw [hmain]; rfl)
      rcases hpresent a repo ha with hbusy' | hlost | ⟨p, -, hp⟩
      · rw [hbusy] at hbusy'
        cases hbusy'
      · exact .inl hlost
      · exact .inr ⟨p, hp⟩
    · rw [h.forgotten hmain a] at ha
      cases ha
  stopped hmain := (h.emptied (.inr hmain)).1

/-! ## Steps outside the lock -/

section Steps

variable {s : State} {t : Tables}

theorem inv_of_beforeLock (hbefore : s.main.beforeLock = true) (howned : Owned s.tables s.nextOp)
    (hbuilds : ∀ p repo, s.tables.live.lookup p = some (.build repo) →
      ∃ turns builds, s.watcher = .building turns builds p)
    (hblock : ∀ b, s.held = some b → BlockOk s.tables b)
    (hlocked : ∀ b, s.held = some b → Locked s b.thread) (hplan : PlanPc s.tables s.watcher)
    (hconfig : s.main.pastConfig = true → s.watcher = .ended)
    (hhealth : s.main.pastHealth = true → s.health = .ended)
    (hpresent : Present s.tables s.busy) : Inv s := by
  refine ⟨howned, hbuilds, hblock, hlocked, hplan, hconfig, hhealth, fun _ => hpresent, ?_, ?_⟩
  · rintro (hmain | hmain) <;> rw [hmain] at hbefore <;> cases hbefore
  · intro hmain
    rw [hmain] at hbefore
    cases hbefore

theorem Inv.setWatcher (h : Inv s) (pc : WatcherPc) (hpc : s.watcher ≠ .locked)
    (hended : s.watcher = .ended → pc = .ended) (hplan : PlanPc s.tables pc)
    (hbuilds : ∀ p repo, s.tables.live.lookup p = some (.build repo) →
      ∃ turns builds, pc = .building turns builds p) : Inv { s with watcher := pc } where
  owned := h.owned
  builds := hbuilds
  block := h.block
  locked b hb := by
    have hlocked := h.locked b hb
    generalize b.thread = thread at hlocked ⊢
    cases thread with
    | watcher => exact absurd hlocked hpc
    | health => exact hlocked
    | main => exact hlocked
  plan := hplan
  joinedConfig hmain := hended (h.joinedConfig hmain)
  joinedHealth := h.joinedHealth
  present := h.present
  emptied := h.emptied
  forgotten := h.forgotten

theorem Inv.setHealth (h : Inv s) (pc : HealthPc) (hpc : s.health ≠ .locked)
    (hended : s.health = .ended → pc = .ended) : Inv { s with health := pc } where
  owned := h.owned
  builds := h.builds
  block := h.block
  locked b hb := by
    have hlocked := h.locked b hb
    generalize b.thread = thread at hlocked ⊢
    cases thread with
    | watcher => exact hlocked
    | health => exact absurd hlocked hpc
    | main => exact hlocked
  plan := h.plan
  joinedConfig := h.joinedConfig
  joinedHealth hmain := hended (h.joinedHealth hmain)
  present := h.present
  emptied := h.emptied
  forgotten := h.forgotten

theorem Inv.setMain (h : Inv s) (pc : MainPc) (hbefore : s.main.beforeLock = true)
    (hpc : pc.beforeLock = true) (hconfig : pc.pastConfig = true → s.watcher = .ended)
    (hhealth : pc.pastHealth = true → s.health = .ended) : Inv { s with main := pc } := by
  refine inv_of_beforeLock hpc h.owned h.builds h.block (fun b hb => ?_) h.plan hconfig hhealth
    (h.present hbefore)
  have hlocked := h.locked b hb
  generalize b.thread = thread at hlocked ⊢
  cases thread with
  | watcher => exact hlocked
  | health => exact hlocked
  | main =>
      rw [show s.main = .locked from hlocked] at hbefore
      cases hbefore

theorem Plan.congr {t' : Tables} {busy : Option String} {turns : List Turn} (h : Plan t busy turns)
    (hcurrent : t'.currentRepos = t.currentRepos) : Plan t' busy turns :=
  ⟨h.distinct, hcurrent ▸ h.fresh, h.kinds⟩

theorem PlanPc.congr {t' : Tables} {pc : WatcherPc} (h : PlanPc t pc)
    (hcurrent : t'.currentRepos = t.currentRepos) : PlanPc t' pc := by
  cases pc with
  | compare desired current => simpa only [PlanPc, hcurrent] using h
  | build turns builds => exact Plan.congr h hcurrent
  | building turns builds p => exact Plan.congr h hcurrent
  | idle => exact h
  | locked => exact h
  | ended => exact h

theorem BlockOk.exit {b : Block} (h : BlockOk t b) (pid : Nat) : BlockOk (t.exit pid) b := by
  obtain ⟨thread, now, turns⟩ := b
  cases thread with
  | watcher =>
      obtain ⟨hnow, hplan⟩ := h
      refine ⟨?_, hplan.congr (exit_currentRepos t pid)⟩
      cases hnow with
      | done => exact .done
      | popRemove a => exact .popRemove a
      | terminateRemove p a hnone hpid =>
          exact .terminateRemove p a (by simpa using hnone) fun r hr => hpid r (lookup_of_exit hr)
      | forget a hnone => exact .forget a (by simpa using hnone)
      | popUpdate repo => exact .popUpdate repo
      | terminateUpdate p repo hnone hpid =>
          exact .terminateUpdate p repo (by simpa using hnone) fun r hr =>
            hpid r (lookup_of_exit hr)
      | start repo hnone => exact .start repo (by simpa using hnone)
      | record repo hready => exact .record repo (hready.exit pid)
  | health =>
      obtain ⟨hnow, hturns⟩ := h
      refine ⟨?_, by simpa using hturns⟩
      cases hnow with
      | done => exact .done
      | check repo hcurrent => exact .check repo (by simpa using hcurrent)
      | start repo hcurrent hnone =>
          exact .start repo (by simpa using hcurrent) (by simpa using hnone)
  | main =>
      cases h with
      | turns pids hall => exact .turns pids fun p child hp => hall p child (lookup_of_exit hp)
      | terminate p pids hall =>
          exact .terminate p pids fun q child hq => hall q child (lookup_of_exit hq)
      | clear hall => exact .clear fun p => exit_none (hall p)
      | done hall hchildren => exact .done (fun p => exit_none (hall p)) (by simpa using hchildren)

theorem Inv.exit (h : Inv s) (pid : Nat) : Inv { s with tables := s.tables.exit pid } where
  owned := h.owned.exit pid
  builds p repo hp := h.builds p repo (lookup_of_exit hp)
  block b hb := (h.block b hb).exit pid
  locked := h.locked
  plan := h.plan.congr (exit_currentRepos _ pid)
  joinedConfig := h.joinedConfig
  joinedHealth := h.joinedHealth
  present hmain := (h.present hmain).exit h.owned pid
  emptied hmain :=
    ⟨fun p => exit_none ((h.emptied hmain).1 p), by simpa using (h.emptied hmain).2⟩
  forgotten hmain := by simpa using h.forgotten hmain

theorem beforeLock_of_pastHealth {pc : MainPc} (h : pc.pastHealth = false) :
    pc.beforeLock = true := by
  cases pc <;> first | rfl | cases h

theorem pastHealth_of_pastConfig {pc : MainPc} (h : pc.pastConfig = false) :
    pc.pastHealth = false := by
  cases pc <;> first | rfl | cases h

theorem Inv.not_pastConfig (h : Inv s) (hpc : s.watcher ≠ .ended) :
    s.main.pastConfig = false ∧ s.main.beforeLock = true := by
  have hmain : s.main.pastConfig = false := Bool.not_eq_true _ ▸ fun hpast =>
    hpc (h.joinedConfig hpast)
  exact ⟨hmain, beforeLock_of_pastHealth (pastHealth_of_pastConfig hmain)⟩

theorem Inv.not_pastHealth (h : Inv s) (hpc : s.health ≠ .ended) :
    s.main.pastHealth = false ∧ s.main.beforeLock = true := by
  have hmain : s.main.pastHealth = false := Bool.not_eq_true _ ▸ fun hpast =>
    hpc (h.joinedHealth hpast)
  exact ⟨hmain, beforeLock_of_pastHealth hmain⟩

theorem Inv.startBuild (h : Inv s) {turns : List Turn} {repo : WatchRepo} {builds : List WatchRepo}
    (hpc : s.watcher = .build turns (repo :: builds)) :
    Inv { s with
      tables := { s.tables with
        live := s.tables.live.insert s.tables.next (.build repo)
        next := s.tables.next + 1 }
      watcher := .building turns builds s.tables.next } := by
  obtain ⟨hmain, hbefore⟩ := h.not_pastConfig (by rw [hpc]; nofun)
  refine inv_of_beforeLock hbefore (h.owned.build repo) (fun p other hp => ?_) (fun b hb => ?_)
    (fun b hb => ?_) ?_ (fun hpast => nomatch hmain.symm.trans hpast) h.joinedHealth
    ((h.present hbefore).build h.owned repo)
  · rcases Dict.lookup_of_insert hp with ⟨rfl, -⟩ | ⟨-, hp⟩
    · exact ⟨turns, builds, rfl⟩
    · exact absurd hp (h.no_build (by rw [hpc]; nofun) p other)
  · have hlocked := h.locked b hb
    have hblock := h.block b hb
    obtain ⟨thread, now, turns'⟩ := b
    cases thread with
    | watcher =>
        rw [Locked, hpc] at hlocked
        cases hlocked
    | health =>
        obtain ⟨hnow, hturns⟩ := hblock
        refine ⟨?_, hturns⟩
        cases hnow with
        | done => exact .done
        | check repo hcurrent => exact .check repo hcurrent
        | start repo hcurrent hnone => exact .start repo hcurrent hnone
    | main =>
        rw [show s.main = .locked from hlocked] at hbefore
        cases hbefore
  · have hlocked := h.locked b hb
    generalize b.thread = thread at hlocked ⊢
    cases thread with
    | watcher =>
        rw [Locked, hpc] at hlocked
        cases hlocked
    | health => exact hlocked
    | main => exact hlocked
  · have hplan := h.plan
    rw [hpc] at hplan
    exact Plan.congr hplan rfl

/-! ## The lock -/

theorem Inv.acquire (h : Inv s) (hfree : s.held = none) {thread : Thread} {s' : State}
    (hs : s.acquire thread = some s') : Inv s' := by
  have hop : s.nextOp = none := by rw [State.nextOp, hfree]; rfl
  have hbusy : s.busy = none := by rw [State.busy, hfree]
  have howned := h.owned
  rw [hop] at howned
  have hpresent : s.main.beforeLock = true → Present s.tables none := fun hbefore =>
    hbusy ▸ h.present hbefore
  cases thread with
  | watcher =>
      simp only [State.acquire] at hs
      split at hs
      · rename_i turns hpc
        cases hs
        have hmain := (h.not_pastConfig (by rw [hpc]; nofun)).1
        have hplan := h.plan
        rw [hpc] at hplan
        refine ⟨howned, fun p repo hp => absurd hp (h.no_build (by rw [hpc]; nofun) p repo),
          fun b hb => ?_, fun b hb => ?_, trivial, (fun hpast => nomatch hmain.symm.trans hpast),
          h.joinedHealth, hpresent, h.emptied, h.forgotten⟩
        · cases hb
          exact ⟨.done, hplan⟩
        · cases hb
          rfl
      · cases hs
  | health =>
      simp only [State.acquire] at hs
      split at hs
      · rename_i hpc
        cases hs
        have hmain := (h.not_pastHealth (by rw [hpc]; nofun)).1
        refine ⟨howned, h.builds, fun b hb => ?_, fun b hb => ?_, h.plan, h.joinedConfig,
          (fun hpast => nomatch hmain.symm.trans hpast), hpresent,
          h.emptied, h.forgotten⟩
        · cases hb
          refine ⟨.done, fun turn hturn => ?_⟩
          obtain ⟨e, he, rfl⟩ := List.mem_map.mp hturn
          have hlookup : s.tables.currentRepos.lookup e.1 = some e.2 :=
            AList.mem_lookup_iff.mpr he
          exact ⟨e.2, rfl, by rw [howned.keyed _ _ hlookup]; exact hlookup⟩
        · cases hb
          rfl
      · cases hs
  | main =>
      simp only [State.acquire] at hs
      split at hs
      · rename_i hpc
        cases hs
        have hended := h.joinedConfig (by rw [hpc]; rfl)
        refine ⟨howned, h.builds, fun b hb => ?_, fun b hb => ?_, h.plan, fun _ => hended,
          fun _ => h.joinedHealth (by rw [hpc]; rfl), nofun, nofun, nofun⟩
        · cases hb
          have hkills : (s.tables.children.entries.map fun e => Turn.kill e.2) =
              (s.tables.children.entries.map Sigma.snd).map .kill := by
            rw [List.map_map]
            rfl
          change MainNow _ [] _
          rw [hkills]
          refine .turns _ fun p child hp => ?_
          cases child with
          | build repo => exact absurd hp (h.no_build (by rw [hended]; nofun) p repo)
          | watch repo =>
              have hchild := howned.entry plain_none hp
              exact List.mem_map.mpr ⟨_, AList.mem_lookup_iff.mp hchild, rfl⟩
        · cases hb
          rfl
      · cases hs

theorem Inv.watcherBlock (h : Inv s) {now : List Op} {turns : List Turn}
    (hheld : s.held = some ⟨.watcher, now, turns⟩) {now' : List Op} {turns' : List Turn}
    (howned : Owned t now'.head?) (hnow : WatcherNow t now')
    (hplan : Plan t (busyName now') turns')
    (hpresent : Present s.tables (busyName now) → Present t (busyName now'))
    (hlive : ∀ p repo, t.live.lookup p = some (.build repo) →
      s.tables.live.lookup p = some (.build repo)) :
    Inv { s with tables := t, held := some ⟨.watcher, now', turns'⟩ } := by
  have hpc : s.watcher = .locked := h.locked _ hheld
  have hnone := h.no_build (by rw [hpc]; nofun)
  have hbusy : s.busy = busyName now := by rw [State.busy, hheld]
  obtain ⟨hmain, hbefore⟩ := h.not_pastConfig (by rw [hpc]; nofun)
  refine inv_of_beforeLock hbefore howned (fun p repo hp => absurd (hlive p repo hp) (hnone p repo))
    (fun b hb => ?_) (fun b hb => ?_) ?_ (fun hpast => nomatch hmain.symm.trans hpast)
    h.joinedHealth (hpresent (hbusy ▸ h.present hbefore))
  · cases hb
    exact ⟨hnow, hplan⟩
  · cases hb
    exact hpc
  · rw [hpc]
    trivial

theorem Inv.watcherRelease (h : Inv s) {now : List Op} {turns : List Turn}
    (hheld : s.held = some ⟨.watcher, now, turns⟩) (howned : Owned t none)
    (hpresent : Present s.tables (busyName now) → Present t none)
    (hlive : ∀ p repo, t.live.lookup p = some (.build repo) →
      s.tables.live.lookup p = some (.build repo)) :
    Inv { s with tables := t, held := none, watcher := .idle } := by
  have hpc : s.watcher = .locked := h.locked _ hheld
  have hnone := h.no_build (by rw [hpc]; nofun)
  have hbusy : s.busy = busyName now := by rw [State.busy, hheld]
  obtain ⟨hmain, hbefore⟩ := h.not_pastConfig (by rw [hpc]; nofun)
  exact inv_of_beforeLock hbefore howned (fun p repo hp => absurd (hlive p repo hp) (hnone p repo))
    nofun nofun trivial (fun hpast => nomatch hmain.symm.trans hpast) h.joinedHealth
    (hpresent (hbusy ▸ h.present hbefore))

theorem Inv.healthBlock (h : Inv s) {now : List Op} {turns : List Turn}
    (hheld : s.held = some ⟨.health, now, turns⟩) {now' : List Op} {turns' : List Turn}
    (hcurrent : t.currentRepos = s.tables.currentRepos) (howned : Owned t now'.head?)
    (hnow : HealthNow t now') (hturns : turns' ⊆ turns)
    (hpresent : Present s.tables none → Present t none)
    (hlive : ∀ p repo, t.live.lookup p = some (.build repo) →
      s.tables.live.lookup p = some (.build repo)) :
    Inv { s with tables := t, held := some ⟨.health, now', turns'⟩ } := by
  have hpc : s.health = .locked := h.locked _ hheld
  have hbusy : s.busy = none := by rw [State.busy, hheld]
  obtain ⟨hmain, hbefore⟩ := h.not_pastHealth (by rw [hpc]; nofun)
  refine inv_of_beforeLock hbefore howned (fun p repo hp => h.builds p repo (hlive p repo hp))
    (fun b hb => ?_) (fun b hb => ?_) (h.plan.congr hcurrent) h.joinedConfig
    (fun hpast => nomatch hmain.symm.trans hpast) (hpresent (hbusy ▸ h.present hbefore))
  · cases hb
    refine ⟨hnow, fun turn hturn => ?_⟩
    have hblock := (h.block _ hheld).2 turn (hturns hturn)
    rwa [hcurrent]
  · cases hb
    exact hpc

theorem Inv.healthRelease (h : Inv s) {now : List Op} {turns : List Turn}
    (hheld : s.held = some ⟨.health, now, turns⟩) (raised : Bool)
    (hcurrent : t.currentRepos = s.tables.currentRepos) (howned : Owned t none)
    (hpresent : Present s.tables none → Present t none)
    (hlive : ∀ p repo, t.live.lookup p = some (.build repo) →
      s.tables.live.lookup p = some (.build repo)) :
    Inv { s with
      tables := t
      held := none
      health := if raised then .ended else .idle } := by
  have hpc : s.health = .locked := h.locked _ hheld
  have hbusy : s.busy = none := by rw [State.busy, hheld]
  obtain ⟨hmain, hbefore⟩ := h.not_pastHealth (by rw [hpc]; nofun)
  exact inv_of_beforeLock hbefore howned (fun p repo hp => h.builds p repo (hlive p repo hp))
    nofun nofun (h.plan.congr hcurrent) h.joinedConfig
    (fun hpast => nomatch hmain.symm.trans hpast) (hpresent (hbusy ▸ h.present hbefore))

theorem Inv.mainBlock (h : Inv s) {now : List Op} {turns : List Turn}
    (hheld : s.held = some ⟨.main, now, turns⟩) {now' : List Op} {turns' : List Turn}
    (hcurrent : t.currentRepos = s.tables.currentRepos) (howned : Owned t now'.head?)
    (hnow : MainNow t now' turns')
    (hlive : ∀ p repo, t.live.lookup p = some (.build repo) →
      s.tables.live.lookup p = some (.build repo)) :
    Inv { s with tables := t, held := some ⟨.main, now', turns'⟩ } := by
  have hpc : s.main = .locked := h.locked _ hheld
  refine ⟨howned, fun p repo hp => h.builds p repo (hlive p repo hp), fun b hb => ?_,
    fun b hb => ?_, h.plan.congr hcurrent, h.joinedConfig, h.joinedHealth, fun hbefore => ?_, ?_,
    fun hreturn => ?_⟩
  · cases hb
    exact hnow
  · cases hb
    exact hpc
  · rw [hpc] at hbefore
    cases hbefore
  · rw [hpc]
    rintro (hclear | hreturn) <;> contradiction
  · rw [hpc] at hreturn
    cases hreturn

theorem Owned.of_next (h : Inv s) {b : Block} (hheld : s.held = some b) :
    Owned s.tables b.now.head? := by
  have howned := h.owned
  rwa [State.nextOp, hheld] at howned

theorem plain_of {op : Op} (hterm : ∀ p, op ≠ .terminate p) (hrec : ∀ r, op ≠ .record r) :
    Plain (some op) :=
  ⟨fun p heq => hterm p (Option.some.inj heq), fun r heq => hrec r (Option.some.inj heq)⟩

theorem Inv.nextTurn (h : Inv s) {thread : Thread} {turn : Turn} {turns : List Turn}
    (hheld : s.held = some ⟨thread, [], turn :: turns⟩) :
    Inv { s with held := some ⟨thread, turn.ops, turns⟩ } := by
  have howned : Owned s.tables none := Owned.of_next h hheld
  have hblock := h.block _ hheld
  cases thread with
  | watcher =>
      obtain ⟨-, hplan⟩ := hblock
      have hrest : Plan s.tables (some turn.aliasName) turns :=
        ⟨hplan.distinct, fun repo hrepo => hplan.fresh repo (List.mem_cons_of_mem _ hrepo),
          fun other hother => hplan.kinds other (List.mem_cons_of_mem _ hother)⟩
      have hbusy : Present s.tables none → Present s.tables (some turn.aliasName) :=
        fun hpresent a r ha => .inr ((hpresent a r ha).resolve_left nofun)
      rcases hplan.kinds turn List.mem_cons_self with ⟨a, rfl⟩ | ⟨repo, rfl⟩ | ⟨repo, rfl⟩
      · exact h.watcherBlock hheld (howned.plain plain_none _ (plain_of nofun nofun))
          (.popRemove a) hrest hbusy fun _ _ hp => hp
      · have hnone : s.tables.children.lookup repo.aliasName = none := by
          by_contra hsome
          obtain ⟨p, hp⟩ := Option.ne_none_iff_exists'.mp hsome
          have htracked := howned.known plain_none hp
          rw [hplan.fresh repo List.mem_cons_self] at htracked
          cases htracked
        exact h.watcherBlock hheld (howned.plain plain_none _ (plain_of nofun nofun))
          (.start repo hnone) hrest hbusy fun _ _ hp => hp
      · exact h.watcherBlock hheld (howned.plain plain_none _ (plain_of nofun nofun))
          (.popUpdate repo) hrest hbusy fun _ _ hp => hp
  | health =>
      obtain ⟨repo, rfl, hcurrent⟩ := hblock.2 turn List.mem_cons_self
      exact h.healthBlock hheld rfl (howned.plain plain_none _ (plain_of nofun nofun))
        (.check repo hcurrent) (List.subset_cons_self _ _) id fun _ _ hp => hp
  | main =>
      change MainNow s.tables [] (turn :: turns) at hblock
      generalize hturns : turn :: turns = all at hblock
      cases hblock with
      | turns pids hall =>
          cases pids with
          | nil =>
              cases hturns
              refine h.mainBlock hheld rfl (howned.plain plain_none _ (plain_of nofun nofun))
                (.clear fun p => ?_) fun _ _ hp => hp
              by_contra hsome
              obtain ⟨child, hchild⟩ := Option.ne_none_iff_exists'.mp hsome
              exact List.not_mem_nil (hall p child hchild)
          | cons pid pids =>
              cases hturns
              refine h.mainBlock hheld rfl ?_ (.terminate pid pids fun p child hp =>
                List.mem_cons.mp (hall p child hp)) fun _ _ hp => hp
              refine ⟨howned.live_lt, howned.children_lt, howned.kind,
                fun p r hp => .inl (howned.entry plain_none hp), fun p r q _ hp hq => ?_,
                fun a p ha => .inl (howned.known plain_none ha),
                fun p r hp ha => .inl (howned.current plain_none hp ha), nofun, howned.keyed⟩
              rw [howned.entry plain_none hp] at hq
              exact (Option.some.inj hq).symm
      | done _ _ => cases hturns

theorem Inv.unlock (h : Inv s) {thread : Thread} (hheld : s.held = some ⟨thread, [], []⟩) :
    Inv (s.release thread false) := by
  have howned : Owned s.tables none := Owned.of_next h hheld
  have hblock := h.block _ hheld
  cases thread with
  | watcher => exact h.watcherRelease hheld howned id fun _ _ hp => hp
  | health => exact h.healthRelease hheld false rfl howned id fun _ _ hp => hp
  | main =>
      have hpc : s.main = .locked := h.locked _ hheld
      change MainNow s.tables [] [] at hblock
      generalize hturns : ([] : List Turn) = all at hblock
      cases hblock with
      | turns pids _ => cases pids <;> cases hturns
      | done hlive hchildren =>
          exact ⟨howned, h.builds, nofun, nofun, h.plan, fun _ => h.joinedConfig (by rw [hpc]; rfl),
            fun _ => h.joinedHealth (by rw [hpc]; rfl), nofun, fun _ => ⟨hlive, hchildren⟩, nofun⟩

theorem Inv.clearCurrent (h : Inv s) (hpc : s.main = .clearing) :
    Inv { s with tables := { s.tables with currentRepos := ∅ }, main := .returned } := by
  obtain ⟨hlive, hchildren⟩ := h.emptied (.inl hpc)
  have hended := h.joinedConfig (by rw [hpc]; rfl)
  have hended' := h.joinedHealth (by rw [hpc]; rfl)
  have hfree : ∀ b, s.held ≠ some b := by
    intro b hb
    have hlocked := h.locked b hb
    generalize b.thread = thread at hlocked
    cases thread with
    | watcher => exact nomatch hended.symm.trans hlocked
    | health => exact nomatch hended'.symm.trans hlocked
    | main => exact nomatch hpc.symm.trans hlocked
  refine ⟨?_, h.builds, fun b hb => absurd hb (hfree b), fun b hb => absurd hb (hfree b), ?_,
    fun _ => hended, fun _ => hended', nofun, fun _ => ⟨hlive, hchildren⟩, fun _ a => by simp⟩
  · have howned := h.owned
    refine ⟨howned.live_lt, howned.children_lt, howned.kind, howned.owned, howned.sole,
      fun a p ha => ?_, fun p r hp => ?_, howned.recorded, fun a r ha => by simp at ha⟩
    · rw [hchildren a] at ha
      cases ha
    · rw [hlive p] at hp
      cases hp
  · rw [hended]
    trivial

/-! ## The statements of a block -/

theorem Owned.start_failed {op : Option Op} (h : Owned t op) (hop : Plain op) {repo : WatchRepo}
    (hnone : t.children.lookup repo.aliasName = none) (lost : List String) :
    Owned { t with lost := lost } (some (.record repo)) := by
  have h := (h.plain hop none plain_none).withLost lost
  refine ⟨h.live_lt, h.children_lt, h.kind,
    fun p r hp => .inl (h.entry plain_none hp), nofun,
    fun a p ha => .inl (h.known plain_none ha),
    fun p r hp ha => .inl (h.current plain_none hp ha), fun p r r' heq _ ha hname => ?_, h.keyed⟩
  cases heq
  rw [hname, hnone] at ha
  cases ha

theorem Inv.watcherPop (h : Inv s) {a : String} {rest : List Op} {turns : List Turn}
    (hheld : s.held = some ⟨.watcher, .pop a :: rest, turns⟩)
    (hbusy : ∀ front : List Op, busyName (front ++ rest) = some a) (hrest : Plain rest.head?)
    (hterm : ∀ (t : Tables) (p : Nat), t.children.lookup a = none →
      (∀ r, t.live.lookup p = some (.watch r) → r.aliasName = a) →
        WatcherNow t (.terminate p :: rest))
    (hnone : ∀ t : Tables, t.children.lookup a = none → WatcherNow t rest) {outcome : Outcome}
    {s' : State} (hs : s.runOp ⟨.watcher, .pop a :: rest, turns⟩ rest (.pop a) outcome = some s') :
    Inv s' := by
  have howned : Owned s.tables (some (.pop a)) := Owned.of_next h hheld
  have hplain : Plain (some (.pop a)) := plain_of nofun nofun
  have hsame : busyName (.pop a :: rest) = some a := hbusy [.pop a]
  have hsame' : busyName rest = some a := hbusy []
  have hplan := (h.block _ hheld).2
  rw [hsame] at hplan
  have herase : (AList.erase a s.tables.children).lookup a = none := AList.lookup_erase a _
  cases outcome with
  | failed => cases hs
  | raised => cases hs
  | ok =>
      cases hchild : s.tables.children.lookup a with
      | none =>
          simp only [State.runOp, hchild, List.nil_append, Option.some.injEq] at hs
          subst hs
          have hdead : Owned { s.tables with children := s.tables.children.erase a } none :=
            howned.pop_dead hplain fun p hp => by rw [hchild] at hp; cases hp
          refine h.watcherBlock hheld (hdead.plain plain_none _ hrest) (hnone _ herase)
            (by rw [hsame']; exact hplan.congr rfl) (fun hpresent => ?_) fun _ _ hp => hp
          rw [hsame] at hpresent
          rw [hsame']
          exact hpresent.pop
      | some pid =>
          simp only [State.runOp, hchild, List.singleton_append, Option.some.injEq] at hs
          subst hs
          have hsame'' : busyName (.terminate pid :: rest) = some a := hbusy [.terminate pid]
          refine h.watcherBlock hheld (howned.pop hplain hchild)
            (hterm _ pid herase fun r hr => ?_)
            (by rw [hsame'']; exact hplan.congr rfl) (fun hpresent => ?_)
            fun _ _ hp => hp
          · obtain ⟨r', heq, hname⟩ := howned.kind a pid _ hchild hr
            cases heq
            exact hname
          · rw [hsame] at hpresent
            rw [hsame'']
            exact hpresent.pop

theorem Inv.watcherTerminate (h : Inv s) {pid : Nat} {a : String} {rest : List Op}
    {turns : List Turn} (hheld : s.held = some ⟨.watcher, .terminate pid :: rest, turns⟩)
    (hbusy : ∀ front : List Op, busyName (front ++ rest) = some a) (hrest : Plain rest.head?)
    (hpid : ∀ r, s.tables.live.lookup pid = some (.watch r) → r.aliasName = a)
    (hnow : WatcherNow { s.tables with live := s.tables.live.erase pid } rest) :
    Inv { s with
      tables := { s.tables with live := s.tables.live.erase pid }
      held := some ⟨.watcher, rest, turns⟩ } := by
  have howned : Owned s.tables (some (.terminate pid)) := Owned.of_next h hheld
  have hplan := (h.block _ hheld).2
  have hsame : busyName (.terminate pid :: rest) = some a := hbusy [.terminate pid]
  have hsame' : busyName rest = some a := hbusy []
  rw [hsame] at hplan
  refine h.watcherBlock hheld (howned.terminate.plain plain_none _ hrest) hnow
    (by rw [hsame']; exact hplan.congr rfl) (fun hpresent => ?_)
    fun p repo hp => (Dict.lookup_of_erase hp).2
  rw [hsame] at hpresent
  rw [hsame']
  exact hpresent.terminate howned hpid

theorem build_of_startWatcher {repo repo' : WatchRepo} {outcome : Outcome} {p : Nat}
    (hp : (t.startWatcher repo outcome).live.lookup p = some (.build repo')) :
    t.live.lookup p = some (.build repo') := by
  cases outcome with
  | ok => exact ((Dict.lookup_of_insert hp).resolve_left (by simp)).2
  | failed => exact hp
  | raised => exact hp

theorem busyName_append_forget (front : List Op) (a : String) :
    busyName (front ++ [.forget a]) = some a := by
  simp [busyName]

theorem busyName_append_record (front : List Op) (repo : WatchRepo) :
    busyName (front ++ [.start repo, .record repo]) = some repo.aliasName := by
  simp [busyName]

theorem Inv.watcherForget (h : Inv s) {a : String} {turns : List Turn}
    (hheld : s.held = some ⟨.watcher, [.forget a], turns⟩)
    (hnone : s.tables.children.lookup a = none) {outcome : Outcome} {s' : State}
    (hs : s.runOp ⟨.watcher, [.forget a], turns⟩ [] (.forget a) outcome = some s') : Inv s' := by
  have hplan : Plan s.tables (some a) turns := (h.block _ hheld).2
  have howned : Owned s.tables (some (.forget a)) := Owned.of_next h hheld
  have hplain : Plain (some (.forget a)) := plain_of nofun nofun
  cases outcome with
  | failed => cases hs
  | raised => cases hs
  | ok =>
      simp only [State.runOp] at hs
      split at hs
      · cases hs
        refine h.watcherBlock hheld (howned.forget hplain hnone) .done
          ⟨?_, fun repo hrepo => ?_, hplan.kinds⟩ (fun hpresent => hpresent.forget)
          fun _ _ hp => hp
        · exact (List.nodup_append.mp hplan.distinct).2.1
        · simp only [Dict.lookup_erase_ite]
          split
          · rfl
          · exact hplan.fresh repo hrepo
      · rename_i hgone
        cases hs
        refine h.watcherRelease hheld (howned.plain hplain none plain_none)
          (fun hpresent b r hb => .inr ((hpresent b r hb).resolve_left fun heq => ?_))
          fun _ _ hp => hp
        have heq' : a = b := Option.some.inj heq
        rw [heq', hb] at hgone
        exact hgone rfl

theorem Inv.watcherStart (h : Inv s) {repo : WatchRepo} {turns : List Turn}
    (hheld : s.held = some ⟨.watcher, [.start repo, .record repo], turns⟩)
    (hnone : s.tables.children.lookup repo.aliasName = none) {outcome : Outcome} {s' : State}
    (hs : s.runOp ⟨.watcher, [.start repo, .record repo], turns⟩ [.record repo] (.start repo)
      outcome = some s') : Inv s' := by
  have hplan : Plan s.tables (some repo.aliasName) turns := (h.block _ hheld).2
  have howned : Owned s.tables (some (.start repo)) := Owned.of_next h hheld
  have hplain : Plain (some (.start repo)) := plain_of nofun nofun
  cases outcome with
  | ok =>
      cases hs
      exact h.watcherBlock hheld
        (howned.start hplain hnone _ nofun (fun r heq => by cases heq; rfl) (.inr rfl))
        (.record repo (ready_start _ _ _)) (hplan.congr rfl)
        (fun hpresent => hpresent.start howned (.inl rfl)) fun _ _ => build_of_startWatcher
  | failed =>
      cases hs
      exact h.watcherBlock hheld (howned.start_failed hplain hnone _)
        (.record repo (ready_start _ _ _)) (hplan.congr rfl)
        (fun hpresent => hpresent.mono (List.subset_cons_self _ _)) fun _ _ hp => hp
  | raised =>
      cases hs
      refine h.watcherRelease hheld ((howned.plain hplain none plain_none).withLost _)
        (fun hpresent b r hb => .inr ?_) fun _ _ hp => hp
      rcases hpresent b r hb with heq | hlost | hchild
      · have heq' : repo.aliasName = b := Option.some.inj heq
        exact .inl (heq' ▸ List.mem_cons_self)
      · exact .inl (List.mem_cons_of_mem _ hlost)
      · exact .inr hchild

theorem Inv.watcherRecord (h : Inv s) {repo : WatchRepo} {turns : List Turn}
    (hheld : s.held = some ⟨.watcher, [.record repo], turns⟩) (hready : Ready s.tables repo)
    {outcome : Outcome} {s' : State}
    (hs : s.runOp ⟨.watcher, [.record repo], turns⟩ [] (.record repo) outcome = some s') :
    Inv s' := by
  have hplan : Plan s.tables (some repo.aliasName) turns := (h.block _ hheld).2
  have howned : Owned s.tables (some (.record repo)) := Owned.of_next h hheld
  cases outcome with
  | failed => cases hs
  | raised => cases hs
  | ok =>
      cases hs
      refine h.watcherBlock hheld howned.record .done ⟨?_, fun other hother => ?_, hplan.kinds⟩
        (fun hpresent => hpresent.record hready) fun _ _ hp => hp
      · exact (List.nodup_append.mp hplan.distinct).2.1
      · have hne : other.aliasName ≠ repo.aliasName := fun heq =>
          (List.nodup_append.mp hplan.distinct).2.2 repo.aliasName (by simp)
            other.aliasName (List.mem_map.mpr ⟨_, hother, rfl⟩) heq.symm
        simp only [AList.lookup_insert_ne hne]
        exact hplan.fresh other hother

theorem Inv.watcherOp (h : Inv s) {op : Op} {rest : List Op} {turns : List Turn}
    (hheld : s.held = some ⟨.watcher, op :: rest, turns⟩) {outcome : Outcome}
    (htimely : ∀ p, op = .terminate p → outcome ≠ .raised) {s' : State}
    (hs : s.runOp ⟨.watcher, op :: rest, turns⟩ rest op outcome = some s') : Inv s' := by
  obtain ⟨hnow, -⟩ := h.block _ hheld
  simp only at hnow
  generalize hops : op :: rest = ops at hnow
  cases hnow with
  | done => cases hops
  | popRemove a =>
      cases hops
      exact h.watcherPop hheld (fun front => busyName_append_forget front a)
        (plain_of nofun nofun) (fun t p => .terminateRemove p a) (fun t => .forget a) hs
  | popUpdate repo =>
      cases hops
      exact h.watcherPop hheld (fun front => busyName_append_record front repo)
        (plain_of nofun nofun) (fun t p => .terminateUpdate p repo) (fun t => .start repo) hs
  | terminateRemove pid a hnone hpid =>
      cases hops
      cases outcome with
      | ok =>
          cases hs
          exact h.watcherTerminate hheld (fun front => busyName_append_forget front a)
            (plain_of nofun nofun) hpid (.forget a hnone)
      | failed => cases hs
      | raised => exact absurd rfl (htimely pid rfl)
  | terminateUpdate pid repo hnone hpid =>
      cases hops
      cases outcome with
      | ok =>
          cases hs
          exact h.watcherTerminate hheld (fun front => busyName_append_record front repo)
            (plain_of nofun nofun) hpid (.start repo hnone)
      | failed => cases hs
      | raised => exact absurd rfl (htimely pid rfl)
  | forget a hnone =>
      cases hops
      exact h.watcherForget hheld hnone hs
  | start repo hnone =>
      cases hops
      exact h.watcherStart hheld hnone hs
  | record repo hready =>
      cases hops
      exact h.watcherRecord hheld hready hs

theorem Inv.healthOp (h : Inv s) {op : Op} {rest : List Op} {turns : List Turn}
    (hheld : s.held = some ⟨.health, op :: rest, turns⟩) {outcome : Outcome} {s' : State}
    (hs : s.runOp ⟨.health, op :: rest, turns⟩ rest op outcome = some s') : Inv s' := by
  obtain ⟨hnow, -⟩ := h.block _ hheld
  have howned := Owned.of_next h hheld
  simp only at hnow howned
  generalize hops : op :: rest = ops at hnow
  cases hnow with
  | done => cases hops
  | check repo hcurrent =>
      cases hops
      have hplain : Plain (some (.check repo)) := plain_of nofun nofun
      cases outcome with
      | failed => cases hs
      | raised => cases hs
      | ok =>
          simp only [State.runOp] at hs
          split at hs
          · rename_i hdead
            cases hs
            have hdead' : ∀ p, s.tables.children.lookup repo.aliasName = some p →
                s.tables.live.lookup p = none := by
              intro p hp
              rw [Tables.dead, hp] at hdead
              exact Option.isNone_iff_eq_none.mp hdead
            exact h.healthBlock hheld rfl
              ((howned.pop_dead hplain hdead').plain plain_none _ (plain_of nofun nofun))
              (.start repo hcurrent (AList.lookup_erase _ _)) (List.Subset.refl _)
              (fun hpresent => hpresent.pop_dead hdead') fun _ _ hp => hp
          · cases hs
            exact h.healthBlock hheld rfl (howned.plain hplain none plain_none) .done
              (List.Subset.refl _) id fun _ _ hp => hp
  | start repo hcurrent hnone =>
      cases hops
      have hplain : Plain (some (.start repo)) := plain_of nofun nofun
      cases outcome with
      | ok =>
          cases hs
          exact h.healthBlock hheld rfl
            (howned.start hplain hnone none nofun nofun (.inl hcurrent)) .done
            (List.Subset.refl _) (fun hpresent => hpresent.start howned (.inr hcurrent))
            fun _ _ => build_of_startWatcher
      | failed =>
          cases hs
          exact h.healthBlock hheld rfl ((howned.plain hplain none plain_none).withLost _) .done
            (List.Subset.refl _) (fun hpresent => hpresent.mono (List.subset_cons_self _ _))
            fun _ _ hp => hp
      | raised =>
          cases hs
          exact h.healthRelease hheld true rfl ((howned.plain hplain none plain_none).withLost _)
            (fun hpresent => hpresent.mono (List.subset_cons_self _ _)) fun _ _ hp => hp

theorem Inv.mainOp (h : Inv s) {op : Op} {rest : List Op} {turns : List Turn}
    (hheld : s.held = some ⟨.main, op :: rest, turns⟩) {outcome : Outcome}
    (htimely : ∀ p, op = .terminate p → outcome ≠ .raised) {s' : State}
    (hs : s.runOp ⟨.main, op :: rest, turns⟩ rest op outcome = some s') : Inv s' := by
  have hnow : MainNow s.tables (op :: rest) turns := h.block _ hheld
  have howned := Owned.of_next h hheld
  simp only at howned
  generalize hops : op :: rest = ops at hnow
  cases hnow with
  | turns pids hall => cases hops
  | done hlive hchildren => cases hops
  | terminate pid pids hall =>
      cases hops
      cases outcome with
      | ok =>
          cases hs
          refine h.mainBlock hheld rfl howned.terminate (.turns pids fun p child hp => ?_)
            fun p repo hp => (Dict.lookup_of_erase hp).2
          obtain ⟨hne, hp⟩ := Dict.lookup_of_erase hp
          exact (hall p child hp).resolve_left hne
      | failed => cases hs
      | raised => exact absurd rfl (htimely pid rfl)
  | clear hlive =>
      cases hops
      cases outcome with
      | ok =>
          cases hs
          exact h.mainBlock hheld rfl (howned.of_empty hlive)
            (.done hlive fun a => by simp) fun _ _ hp => hp
      | failed => cases hs
      | raised => cases hs

end Steps

/-! ## The plan of `reconcile` -/

theorem keyed_dictOf (repos : List WatchRepo) (a : String) (r : WatchRepo)
    (h : (dictOf repos).lookup a = some r) : r.aliasName = a := by
  have hfold : ∀ (repos : List WatchRepo) (d : Dict String WatchRepo),
      (∀ a r, d.lookup a = some r → r.aliasName = a) → ∀ a r,
        (repos.foldl (fun d r => d.insert r.aliasName r) d).lookup a = some r →
          r.aliasName = a := by
    intro repos
    induction repos with
    | nil => exact fun d hd => hd
    | cons repo repos ih =>
        refine fun d hd => ih _ fun a r ha => ?_
        rcases Dict.lookup_of_insert ha with ⟨rfl, rfl⟩ | ⟨-, ha⟩
        · rfl
        · exact hd a r ha
  exact hfold repos ∅ (fun a r ha => by simp at ha) a r h

theorem map_filterMap_lookup {desired : Dict String WatchRepo}
    (hkeyed : ∀ a r, desired.lookup a = some r → r.aliasName = a) {names : List String}
    (hnames : ∀ a ∈ names, a ∈ desired.keys) :
    (names.filterMap desired.lookup).map WatchRepo.aliasName = names := by
  induction names with
  | nil => rfl
  | cons a names ih =>
      obtain ⟨hmem, hrest⟩ := List.forall_mem_cons.mp hnames
      obtain ⟨r, hr⟩ := Option.isSome_iff_exists.mp (AList.lookup_isSome.mpr hmem)
      rw [List.filterMap_cons, hr, List.map_cons, hkeyed a r hr, ih hrest]

theorem plan_of_compare {t : Tables} {desired : Dict String WatchRepo} {current toRemove toAdd
    toUpdate : List String} (hkeyed : ∀ a r, desired.lookup a = some r → r.aliasName = a)
    (hcurrent : current.Nodup) (hall : ∀ a, (t.currentRepos.lookup a).isSome = true → a ∈ current)
    (hremove : toRemove.Perm (current.filter (· ∉ desired.keys)))
    (hadd : toAdd.Perm (desired.keys.filter (· ∉ current))) {p : String → Bool}
    (hupdate : toUpdate.Perm ((desired.keys.filter (· ∈ current)).filter p)) :
    Plan t none (toRemove.map .remove ++ (toAdd.filterMap desired.lookup).map .add ++
      (toUpdate.filterMap desired.lookup).map .update) := by
  have hmemRemove : ∀ a ∈ toRemove, a ∈ current ∧ a ∉ desired.keys := fun a ha => by
    simpa using List.mem_filter.mp (hremove.mem_iff.mp ha)
  have hmemAdd : ∀ a ∈ toAdd, a ∈ desired.keys ∧ a ∉ current := fun a ha => by
    simpa using List.mem_filter.mp (hadd.mem_iff.mp ha)
  have hmemUpdate : ∀ a ∈ toUpdate, a ∈ desired.keys ∧ a ∈ current := fun a ha => by
    have h := List.mem_filter.mp (List.mem_filter.mp (hupdate.mem_iff.mp ha)).1
    simpa using h
  constructor
  · have hnames : (toRemove.map Turn.remove ++ (toAdd.filterMap desired.lookup).map Turn.add ++
        (toUpdate.filterMap desired.lookup).map Turn.update).map Turn.aliasName =
        toRemove ++ toAdd ++ toUpdate := by
      rw [List.map_append, List.map_append, List.map_map, List.map_map, List.map_map]
      congr 1
      · congr 1
        · exact List.map_id _
        · exact map_filterMap_lookup hkeyed fun a ha => (hmemAdd a ha).1
      · exact map_filterMap_lookup hkeyed fun a ha => (hmemUpdate a ha).1
    have hkeys : desired.keys.Nodup := AList.keys_nodup desired
    rw [Option.toList_none, List.nil_append, hnames, List.nodup_append, List.nodup_append]
    refine ⟨⟨hremove.nodup_iff.mpr (hcurrent.filter _), hadd.nodup_iff.mpr (hkeys.filter _),
      fun a ha b hb hab => ?_⟩, hupdate.nodup_iff.mpr ((hkeys.filter _).filter _),
      fun a ha b hb hab => ?_⟩
    · subst hab
      exact (hmemRemove a ha).2 (hmemAdd a hb).1
    · subst hab
      rcases List.mem_append.mp ha with ha | ha
      · exact (hmemRemove a ha).2 (hmemUpdate a hb).1
      · exact (hmemAdd a ha).2 (hmemUpdate a hb).2
  · intro repo hrepo
    have hmem : repo ∈ toAdd.filterMap desired.lookup := by simpa using hrepo
    obtain ⟨a, ha, hlookup⟩ := List.mem_filterMap.mp hmem
    rw [hkeyed a repo hlookup]
    by_contra hsome
    exact (hmemAdd a ha).2 (hall a (Option.isSome_iff_ne_none.mpr hsome))
  · intro turn hturn
    simp only [List.mem_append, List.mem_map] at hturn
    rcases hturn with (⟨a, -, rfl⟩ | ⟨repo, -, rfl⟩) | ⟨repo, -, rfl⟩
    · exact .inl ⟨a, rfl⟩
    · exact .inr (.inl ⟨repo, rfl⟩)
    · exact .inr (.inr ⟨repo, rfl⟩)

/-! ## All steps -/

section Runs

variable {s s' : State}

theorem Inv.compare (h : Inv s) {desired : Dict String WatchRepo}
    {current toRemove toAdd toUpdate : List String} {builds : List WatchRepo}
    (hpc : s.watcher = .compare desired current)
    (hs : s.compareConfigs desired current toRemove toAdd toUpdate builds = some s') : Inv s' := by
  have hplan := h.plan
  rw [hpc] at hplan
  obtain ⟨hkeyed, hnodup, hall⟩ := hplan
  have hnone := h.no_build (by rw [hpc]; nofun)
  have hlocked : s.watcher ≠ .locked := by rw [hpc]; nofun
  have hended : ∀ pc : WatcherPc, s.watcher = .ended → pc = .ended := by
    intro pc hpc'
    rw [hpc] at hpc'
    cases hpc'
  simp only [State.compareConfigs] at hs
  split at hs
  · cases hs
    exact h.setWatcher .idle hlocked (hended _) trivial fun p repo hp => absurd hp (hnone p repo)
  · split at hs
    · rename_i hsets
      cases hs
      exact h.setWatcher _ hlocked (hended _)
        (plan_of_compare hkeyed hnodup hall hsets.1 hsets.2.1 hsets.2.2.1)
        fun p repo hp => absurd hp (hnone p repo)
    · cases hs

theorem Inv.configChanged (h : Inv s) {repos : List WatchRepo}
    (hs : Daemon.step s (.configChanged repos) = some s') : Inv s' := by
  simp only [Daemon.step] at hs
  split at hs
  · rename_i hpc
    cases hs
    refine h.setWatcher _ (by rw [hpc]; nofun) (by rw [hpc]; nofun)
      ⟨keyed_dictOf repos, AList.keys_nodup _, fun a ha => AList.lookup_isSome.mp ha⟩
      fun p repo hp => absurd hp (h.no_build (by rw [hpc]; nofun) p repo)
  · cases hs

theorem Inv.endBuild (h : Inv s) (hs : Daemon.step s .endBuild = some s') : Inv s' := by
  simp only [Daemon.step] at hs
  split at hs
  · rename_i turns builds pid hpc
    split at hs
    · rename_i hdead
      cases hs
      have hplan := h.plan
      rw [hpc] at hplan
      refine h.setWatcher _ (by rw [hpc]; nofun) (by rw [hpc]; nofun) hplan
        fun p repo hp => ?_
      -- the build that was waited for is the only one there is
      obtain ⟨turns', builds', hbuilding⟩ := h.builds p repo hp
      rw [hpc] at hbuilding
      cases hbuilding
      rw [hp] at hdead
      cases hdead
    · cases hs
  · cases hs

theorem Inv.threadEnds (h : Inv s) {thread : Thread}
    (hs : Daemon.step s (.threadEnds thread) = some s') : Inv s' := by
  cases thread with
  | watcher =>
      simp only [Daemon.step] at hs
      split at hs
      · rename_i hpc
        split at hs
        · cases hs
          exact h.setWatcher _ (by rw [hpc]; nofun) (fun _ => rfl) trivial
            fun p repo hp => absurd hp (h.no_build (by rw [hpc]; nofun) p repo)
        · cases hs
      · cases hs
  | health =>
      simp only [Daemon.step] at hs
      split at hs
      · rename_i hpc
        cases hs
        exact h.setHealth _ (by rw [hpc.1]; nofun) fun _ => rfl
      · cases hs
  | main => cases hs

theorem Inv.joinConfig (h : Inv s) (hok : Timely s .joinConfig)
    (hs : Daemon.step s .joinConfig = some s') : Inv s' := by
  simp only [Daemon.step] at hs
  split at hs
  · rename_i hpc
    cases hs
    have hended : s.watcher = .ended := by simpa [Timely, timely] using hok
    exact h.setMain _ (by rw [hpc]; rfl) rfl (fun _ => hended) nofun
  · cases hs

theorem Inv.joinHealth (h : Inv s) (hok : Timely s .joinHealth)
    (hs : Daemon.step s .joinHealth = some s') : Inv s' := by
  simp only [Daemon.step] at hs
  split at hs
  · rename_i hpc
    cases hs
    have hended : s.health = .ended := by simpa [Timely, timely] using hok
    exact h.setMain _ (by rw [hpc]; rfl) rfl (fun _ => h.joinedConfig (by rw [hpc]; rfl))
      fun _ => hended
  · cases hs

theorem Inv.step (h : Inv s) {a : Act} (hok : Timely s a) (hs : step s a = some s') : Inv s' := by
  cases a with
  | configChanged repos => exact h.configChanged hs
  | compare toRemove toAdd toUpdate builds =>
      simp only [Daemon.step] at hs
      split at hs
      · rename_i desired current hpc
        exact h.compare hpc hs
      · cases hs
  | startBuild =>
      simp only [Daemon.step] at hs
      split at hs
      · rename_i turns repo builds hpc
        cases hs
        exact h.startBuild hpc
      · cases hs
  | endBuild => exact h.endBuild hs
  | giveUp =>
      simp only [Daemon.step] at hs
      split at hs
      · rename_i turns builds hpc
        cases hs
        exact h.setWatcher _ (by rw [hpc]; nofun) (by rw [hpc]; nofun) trivial
          fun p repo hp => absurd hp (h.no_build (by rw [hpc]; nofun) p repo)
      · cases hs
  | checkBegin =>
      simp only [Daemon.step] at hs
      split at hs
      · rename_i hpc
        cases hs
        exact h.setHealth _ (by rw [hpc.1]; nofun) (by rw [hpc.1]; nofun)
      · cases hs
  | lock thread =>
      simp only [Daemon.step] at hs
      split at hs
      · rename_i hfree
        exact h.acquire (Option.isNone_iff_eq_none.mp hfree) hs
      · cases hs
  | nextTurn =>
      simp only [Daemon.step] at hs
      split at hs
      · rename_i thread turn turns hheld
        cases hs
        exact h.nextTurn hheld
      · cases hs
  | op outcome =>
      simp only [Daemon.step] at hs
      split at hs
      · rename_i thread op rest turns hheld
        have htimely : ∀ p, op = .terminate p → outcome ≠ .raised := by
          rintro p rfl rfl
          simp [Timely, timely, hheld] at hok
        cases thread with
        | watcher => exact h.watcherOp hheld htimely hs
        | health => exact h.healthOp hheld hs
        | main => exact h.mainOp hheld htimely hs
      · cases hs
  | unlock =>
      simp only [Daemon.step] at hs
      split at hs
      · rename_i thread hheld
        cases hs
        exact h.unlock hheld
      · cases hs
  | exit pid =>
      simp only [Daemon.step] at hs
      split at hs
      · cases hs
        exact h.exit pid
      · cases hs
  | threadEnds thread => exact h.threadEnds hs
  | stop =>
      simp only [Daemon.step] at hs
      split at hs
      · rename_i hpc
        cases hs
        exact h.setMain _ (by rw [hpc]; rfl) rfl nofun nofun
      · cases hs
  | joinConfig => exact h.joinConfig hok hs
  | joinHealth => exact h.joinHealth hok hs
  | clearCurrent =>
      simp only [Daemon.step] at hs
      split at hs
      · rename_i hpc
        cases hs
        exact h.clearCurrent hpc
      · cases hs

/-! ## The start -/

theorem start_tables_append (repos : List (WatchRepo × Bool)) (r : WatchRepo × Bool) :
    (start (repos ++ [r])).tables =
      { (start repos).tables.startWatcher r.1 (if r.2 then .ok else .failed) with
        currentRepos := (start repos).tables.currentRepos.insert r.1.aliasName r.1 } := by
  simp only [start, List.foldl_append, List.foldl_cons, List.foldl_nil]
  cases r.2 <;> rfl

theorem owned_start (repos : List (WatchRepo × Bool))
    (hnames : (repos.map fun r => r.1.aliasName).Nodup) :
    Owned (start repos).tables none ∧ Present (start repos).tables none ∧
      (∀ p repo, (start repos).tables.live.lookup p ≠ some (.build repo)) ∧
      ∀ a, ((start repos).tables.currentRepos.lookup a).isSome = true →
        a ∈ repos.map fun r => r.1.aliasName := by
  induction repos using List.reverseRecOn with
  | nil =>
      refine ⟨?_, nofun, nofun, fun a ha => nomatch ha⟩
      constructor <;> nofun
  | append_singleton repos r ih =>
      rw [List.map_append, List.nodup_append] at hnames
      obtain ⟨howned, hpresent, hbuild, hcurrent⟩ := ih hnames.1
      have hnone : (start repos).tables.children.lookup r.1.aliasName = none := by
        by_contra hsome
        obtain ⟨p, hp⟩ := Option.ne_none_iff_exists'.mp hsome
        exact hnames.2.2 _ (hcurrent _ (howned.known plain_none hp)) _ List.mem_cons_self rfl
      have hbusy : Present (start repos).tables (some r.1.aliasName) := fun a repo ha =>
        .inr ((hpresent a repo ha).resolve_left nofun)
      rw [start_tables_append]
      refine ⟨?_, ?_, fun p repo hp => hbuild p repo (build_of_startWatcher hp), fun a ha => ?_⟩
      · cases hstarted : r.2 with
        | true =>
            exact (howned.start plain_none hnone (some (.record r.1)) nofun
              (fun other heq => by cases heq; rfl) (.inr rfl)).record
        | false => exact (howned.start_failed plain_none hnone _).record
      · cases hstarted : r.2 with
        | true => exact (hbusy.start howned (.inl rfl)).record (ready_start _ _ _)
        | false =>
            exact (hbusy.mono (List.subset_cons_self _ _)).record (.inl List.mem_cons_self)
      · simp only [Dict.lookup_insert_ite] at ha
        rw [List.map_append, List.mem_append]
        split at ha
        · rename_i heq
          exact .inr (List.mem_singleton.mpr heq)
        · exact .inl (hcurrent a ha)

theorem inv_start (h : Start s) : Inv s := by
  obtain ⟨repos, hnames, rfl⟩ := h
  obtain ⟨howned, hpresent, hbuild, -⟩ := owned_start repos hnames
  exact ⟨howned, fun p repo hp => absurd hp (hbuild p repo), nofun, nofun, trivial, nofun, nofun,
    fun _ => hpresent, nofun, nofun⟩

theorem inv_of_reach (h : Reach Start step Timely s) : Inv s :=
  h.invariant (fun _ => inv_start) fun _ _ _ _ hinv hok hs => hinv.step hok hs

/-- In runs with timely joins and kills there is one watcher for each alias at most, the
watchers are those of `_current_repos` between operations, and none is left when `stop` has
returned. -/
theorem safe_of_timely (h : Reach Start step Timely s) : Safe s := (inv_of_reach h).safe

/-- A repository is added, the watcher of another one dies and is started again, and the
daemon stops: no process is left. -/
theorem safe_of_timely_stop :
    ∃ s, Reach Start step Timely s ∧ s.main = .returned ∧ ∀ p, s.tables.live.lookup p = none := by
  let web : WatchRepo := ⟨"/src/web", "web"⟩
  let api : WatchRepo := ⟨"/src/api", "api"⟩
  have hrun := exists_reach_of_run Start step Timely (start [(web, true)])
    [.configChanged [web, api], .compare [] ["api"] [] [api], .startBuild, .exit 0, .exit 1,
      .endBuild, .lock .watcher, .nextTurn, .op .ok, .op .ok, .unlock, .checkBegin, .lock .health,
      .nextTurn, .op .ok, .nextTurn, .op .ok, .op .ok, .unlock, .stop, .threadEnds .watcher,
      .joinConfig, .threadEnds .health, .joinHealth, .lock .main, .nextTurn, .op .ok, .nextTurn,
      .op .ok, .nextTurn, .op .ok, .unlock, .clearCurrent]
    (fun s => decide (s.main = .returned)) ⟨[(web, true)], by decide, rfl⟩ (by decide +kernel)
  obtain ⟨s, hreach, hmain⟩ := hrun
  have hreturned : s.main = .returned := of_decide_eq_true hmain
  exact ⟨s, hreach, hreturned, (safe_of_timely hreach).stopped hreturned⟩

/-- A build that takes longer than `stop` waits: the new watcher is started when `stop` has
returned. -/
theorem not_safe_of_late_build : ¬ ∀ s, Reach Start step anyStep s → Safe s := by
  intro hall
  let api : WatchRepo := ⟨"/src/api", "api"⟩
  have hrun := exists_reach_of_run Start step anyStep (start [])
    [.configChanged [api], .compare [] ["api"] [] [api], .startBuild, .stop, .joinConfig,
      .threadEnds .health, .joinHealth, .lock .main, .nextTurn, .op .ok, .unlock, .clearCurrent,
      .exit 0, .endBuild, .lock .watcher, .nextTurn, .op .ok]
    (fun s => decide (s.main = .returned) && decide (s.tables.live.lookup 1 = some (.watch api)))
    ⟨[], by decide, rfl⟩ (by decide +kernel)
  obtain ⟨s, hreach, htest⟩ := hrun
  rw [Bool.and_eq_true, decide_eq_true_eq, decide_eq_true_eq] at htest
  have hnone := (hall s hreach).stopped htest.1 1
  rw [htest.2] at hnone
  cases hnone

end Runs

end Daemon

end Dagayn
