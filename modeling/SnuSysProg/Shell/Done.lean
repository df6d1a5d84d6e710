import SnuSysProg.Shell.Steps

/-
  When `sigzombie_handler` announces that a group is done.

  It does so when no entry of the group is left. While a pipeline is launched its members come into
  the table one by one, with SIGCHLD unblocked between them, so the group may lose its last entry
  before its other members are forked. As long as this does not happen, a group is announced only
  when it has no member left, and once for each launch (`done_once`).
-/

namespace SnuSysProg.Shell
open SnuSysProg.Lib

/-- The handler announces the group. -/
def Announces (g : Int) (h : Happening Call.Ret Event) : Prop :=
  ∃ pid, h = .env (.reap pid (some (doneMessage g)))

/-- The group has been announced, and no group of that number was started since. -/
def Announced (g : Int) (es : List (Happening Call.Ret Event)) : Prop :=
  ∃ es₁ h es₂, es = es₁ ++ h :: es₂ ∧ Announces g h ∧ ∀ h' ∈ es₂, startsGroup h' ≠ some g

/-- When the handler takes an entry of the group that is being launched, the group has another. -/
def KeepsGroup (φ : Phase) (s : Snush) (e : Event) : Prop :=
  ∀ pid text entry, e = .reap pid text →
    s.table.entries.find? (fun e => e.pid = pid) = some entry → φ.stage.group = some entry.pgid →
      ∃ entry' ∈ s.table.entries.eraseP fun e => e.pid = pid, entry'.pgid = entry.pgid

/-- Every background child has its entry, or is being registered; a group that was announced has
    no entry and is not being launched. -/
structure Grouped (es : List (Happening Call.Ret Event)) (φ : Phase) (s : Snush) : Prop where
  member : ∀ pid p, s.procs pid = some p → p.background = true →
    ⟨pid, p.group⟩ ∈ s.table.entries ∨ φ.stage.fresh = some (pid, p.group)
  positive : ∀ e ∈ s.table.entries, 0 < e.pgid
  stage : ∀ g, φ.stage.group = some g → 0 < g
  announced : ∀ g, 0 < g → Announced g es →
    (∀ e ∈ s.table.entries, e.pgid ≠ g) ∧ φ.stage.group ≠ some g

variable {φ φ' : Phase} {s s' : Snush} {c : Call} {r : c.Ret} {g : Int} {e : Event} {pid : Int}
  {es es' : List (Happening Call.Ret Event)} {h : Happening Call.Ret Event} {label : Option Int}

theorem Announced.of_snoc (hann : Announced g (es ++ [h])) :
    Announces g h ∨ Announced g es ∧ startsGroup h ≠ some g := by
  obtain ⟨es₁, h₁, es₂, heq, hann, hnone⟩ := hann
  rcases List.eq_nil_or_concat es₂ with rfl | ⟨es₂, h₂, rfl⟩
  · obtain ⟨-, hlast⟩ := List.append_inj' heq rfl
    obtain rfl := List.singleton_inj.mp hlast
    exact Or.inl hann
  · rw [List.concat_eq_append, ← List.cons_append, ← List.append_assoc] at heq
    obtain ⟨rfl, hlast⟩ := List.append_inj' heq rfl
    obtain rfl := List.singleton_inj.mp hlast
    refine Or.inr ⟨⟨es₁, h₁, es₂, rfl, hann, fun h' hh' => hnone h' ?_⟩, hnone h ?_⟩
    · simp [hh']
    · simp

theorem Stage.group_of_fresh {stage : Stage} {group : Int} (h : stage.fresh = some (pid, group)) :
    stage.group = some group := by
  cases stage with
  | idle => exact absurd h (by simp [Stage.fresh])
  | masked => exact absurd h (by simp [Stage.fresh])
  | counted => exact absurd h (by simp [Stage.fresh])
  | between => exact absurd h (by simp [Stage.fresh])
  | _ => exact congrArg (Option.map Prod.snd) h

theorem Grouped.initial : Grouped [] Phase.initial Snush.initial where
  member := fun _ _ h => absurd h (by simp [Snush.initial])
  positive := fun _ h => absurd h (by simp [Snush.initial, Table.entries_initial])
  stage := fun _ h => absurd h (by simp [Phase.initial, Stage.group])
  announced := fun _ _ h => by
    obtain ⟨es₁, h, es₂, heq, -⟩ := h
    exact absurd heq (by simp)

theorem not_announces_call {r : c.Ret} : ¬ Announces g (.call c r) :=
  fun ⟨_, heq⟩ => absurd heq (by simp)

/-- A step that adds no entry, starts no group and announces none. -/
theorem Grouped.congr (hgrouped : Grouped es φ s) (hquiet : ∀ g, ¬ Announces g h)
    (hentries : s'.table.entries = s.table.entries)
    (hprocs : ∀ pid p, s'.procs pid = some p → p.background = true →
      ∃ q, s.procs pid = some q ∧ q.background = true ∧ q.group = p.group)
    (hfresh : φ'.stage.fresh = φ.stage.fresh)
    (hgroup : ∀ g, φ'.stage.group = some g → φ.stage.group = some g) :
    Grouped (es ++ [h]) φ' s' := by
  constructor
  · intro pid p hp hback
    obtain ⟨q, hq, hqback, hqgroup⟩ := hprocs pid p hp hback
    rw [hentries, hfresh, ← hqgroup]
    exact hgrouped.member pid q hq hqback
  · rw [hentries]
    exact hgrouped.positive
  · exact fun g hg => hgrouped.stage g (hgroup g hg)
  · intro g hpos hann
    rcases hann.of_snoc with hann | ⟨hann, -⟩
    · exact absurd hann (hquiet g)
    · obtain ⟨hnone, hstage⟩ := hgrouped.announced g hpos hann
      rw [hentries]
      exact ⟨hnone, fun hg => hstage (hgroup g hg)⟩

/-- A new member of a group that is being launched. -/
theorem Grouped.forked {r : c.Ret} {group pid : Int} {more : Bool} (hgrouped : Grouped es φ s)
    (hfresh : φ.stage.fresh = none) (hpos : 0 < group)
    (hgroup : startsGroup (.call c r) = some group ∨ φ.stage.group = some group) :
    Grouped (es ++ [.call c r]) ⟨.forked pid group more, []⟩
      (s.setProc pid (some ⟨true, true, group⟩)) := by
  constructor
  · intro x p hp hback
    by_cases hx : x = pid
    · subst hx
      obtain rfl := Option.some.inj ((s.procs_setProc_self x _).symm.trans hp)
      exact Or.inr rfl
    · rw [Snush.procs_setProc_ne hx] at hp
      rcases hgrouped.member x p hp hback with hmem | hold
      · exact Or.inl hmem
      · exact absurd (hfresh.symm.trans hold) (by simp)
  · exact hgrouped.positive
  · intro g hg
    obtain rfl : group = g := Option.some.inj hg
    exact hpos
  · intro g hgpos hann
    rcases hann.of_snoc with hann | ⟨hann, hstart⟩
    · exact absurd hann not_announces_call
    · obtain ⟨hnone, hstage⟩ := hgrouped.announced g hgpos hann
      refine ⟨hnone, fun hg => ?_⟩
      obtain rfl : group = g := Option.some.inj hg
      rcases hgroup with hgroup | hgroup
      · exact hstart hgroup
      · exact hstage hgroup

theorem Grouped.launches {r : c.Ret} (hgrouped : Grouped es φ s) (hmask : Mask φ s)
    (hstep : Launches φ s (startsGroup (.call c r)) φ' s') :
    Grouped (es ++ [.call c r]) φ' s' := by
  have hquiet : ∀ g, ¬ Announces g (.call c r) := fun _ => not_announces_call
  have hsame : ∀ pid p, s.procs pid = some p → p.background = true →
      ∃ q, s.procs pid = some q ∧ q.background = true ∧ q.group = p.group :=
    fun _ p hp hback => ⟨p, hp, hback, rfl⟩
  generalize hlabel : startsGroup (.call c r) = label at hstep
  cases hstep with
  | quiet => exact hgrouped.congr hquiet rfl hsame rfl fun _ hg => hg
  | failed hfresh =>
    exact hgrouped.congr hquiet rfl hsame hfresh.symm fun _ hg => absurd hg (by simp [Stage.group])
  | leader hpos => exact hgrouped.forked rfl hpos (Or.inl hlabel)
  | @member _ _ _ group => exact hgrouped.forked rfl (hgrouped.stage group rfl) (Or.inr rfl)
  | @foreground _ _ r group =>
    refine hgrouped.congr hquiet rfl (fun x p hp hback => ?_) rfl fun _ hg => hg
    by_cases hx : x = r
    · subst hx
      obtain rfl := Option.some.inj ((s.procs_setProc_self x _).symm.trans hp)
      exact absurd hback (by simp)
    · rw [Snush.procs_setProc_ne hx] at hp
      exact hsame x p hp hback
  | mask => exact hgrouped.congr hquiet rfl hsame rfl fun _ hg => absurd hg (by simp [Stage.group])
  | guard => exact hgrouped.congr hquiet rfl hsame rfl fun _ hg => hg
  | storePid => exact hgrouped.congr hquiet Table.entries_setPid hsame rfl fun _ hg => hg
  | storePgid => exact hgrouped.congr hquiet Table.entries_setPgid hsame rfl fun _ hg => hg
  | @count _ _ pid group more =>
    have hpos : 0 < group := hgrouped.stage group rfl
    have hentries := hmask.entries_count
    constructor
    · intro x p hp hback
      rw [hentries]
      rcases hgrouped.member x p hp hback with hmem | hfresh
      · exact Or.inl (List.mem_append_left _ hmem)
      · obtain ⟨rfl, hgroup⟩ := Prod.mk.inj (Option.some.inj hfresh)
        rw [hgroup]
        exact Or.inl (List.mem_append_right _ (List.mem_singleton.mpr rfl))
    · intro e he
      rw [hentries] at he
      rcases List.mem_append.mp he with he | he
      · exact hgrouped.positive e he
      · rw [List.mem_singleton.mp he]
        exact hpos
    · intro g hg
      cases more with
      | true => exact hgrouped.stage g hg
      | false => exact absurd hg (by simp [Stage.group])
    · intro g hgpos hann
      rcases hann.of_snoc with hann | ⟨hann, -⟩
      · exact absurd hann (hquiet g)
      · obtain ⟨hnone, hstage⟩ := hgrouped.announced g hgpos hann
        have hne : group ≠ g := fun heq => hstage (congrArg some heq)
        rw [hentries]
        refine ⟨fun e he => ?_, fun hg => ?_⟩
        · rcases List.mem_append.mp he with he | he
          · exact hnone e he
          · rw [List.mem_singleton.mp he]
            exact hne
        · cases more with
          | true => exact hne (Option.some.inj hg)
          | false => exact absurd hg (by simp [Stage.group])
  | unmask =>
    exact hgrouped.congr hquiet rfl hsame rfl fun _ hg => absurd hg (by simp [Stage.group])
  | @unguard _ _ group more =>
    cases more with
    | true => exact hgrouped.congr hquiet rfl hsame rfl fun _ hg => hg
    | false => exact hgrouped.congr hquiet rfl hsame rfl fun _ hg => hg
  | @waited _ _ pid =>
    refine hgrouped.congr hquiet rfl (fun x p hp hback => ?_) rfl fun _ hg => hg
    exact hsame x p (Snush.procs_of_gone hp).2 hback

theorem Grouped.event (hgrouped : Grouped es φ s) (hgood : KeepsGroup φ s e)
    (hstep : ShellEvent s e s') : Grouped (es ++ [.env e]) φ s' := by
  have hsame : ∀ pid p, s.procs pid = some p → p.background = true →
      ∃ q, s.procs pid = some q ∧ q.background = true ∧ q.group = p.group :=
    fun _ p hp hback => ⟨p, hp, hback, rfl⟩
  cases hstep with
  | @exits pid p hproc hrunning =>
    have hquiet : ∀ g, ¬ Announces g (.env (.exits pid)) := fun _ ⟨_, heq⟩ => absurd heq (by simp)
    refine hgrouped.congr hquiet rfl (fun x q hq hback => ?_) rfl fun _ hg => hg
    change (s.setProc pid (some { p with running := false })).procs x = some q at hq
    by_cases hx : x = pid
    · subst hx
      obtain rfl := Option.some.inj ((s.procs_setProc_self x _).symm.trans hq)
      exact ⟨p, hproc, hback, rfl⟩
    · exact hsame x q ((Snush.procs_setProc_ne hx).symm.trans hq) hback
  | deliver =>
    exact hgrouped.congr (fun _ ⟨_, heq⟩ => absurd heq (by simp)) rfl hsame rfl fun _ hg => hg
  | finish =>
    exact hgrouped.congr (fun _ ⟨_, heq⟩ => absurd heq (by simp)) rfl hsame rfl fun _ hg => hg
  | @reap pid hhandling hzombie =>
    have hentries : ((s.setProc pid none).setTable (handleChild s.table pid).1).table.entries =
        s.table.entries.eraseP fun e => e.pid = pid := handleChild_entries
    constructor
    · intro x p hp hback
      obtain ⟨hx, hold⟩ := Snush.procs_of_gone hp
      rw [hentries, List.mem_eraseP_of_neg (by simpa using hx)]
      exact hgrouped.member x p hold hback
    · intro e he
      rw [hentries] at he
      exact hgrouped.positive e (List.mem_of_mem_eraseP he)
    · exact hgrouped.stage
    · intro g hpos hann
      rw [hentries]
      rcases hann.of_snoc with ⟨pid', heq⟩ | ⟨hann, -⟩
      · obtain ⟨rfl, hwritten⟩ := Event.reap.inj (Happening.env.inj heq)
        obtain ⟨entry, hfind, htext, hlast⟩ := handleChild_writes hwritten
        have hentry := hgrouped.positive entry (List.mem_of_find?_eq_some hfind)
        obtain rfl := doneMessage_inj hpos hentry htext
        rw [handleChild_entries] at hlast
        refine ⟨hlast, fun hgroup => ?_⟩
        obtain ⟨entry', hmem, hpgid⟩ := hgood pid _ entry rfl hfind hgroup
        exact hlast entry' hmem hpgid
      · obtain ⟨hnone, hstage⟩ := hgrouped.announced g hpos hann
        exact ⟨fun e he => hnone e (List.mem_of_mem_eraseP he), hstage⟩

/-! ## Runs -/

/-- In the run every announced group has no member left, none that is still to be forked or
    registered, and it is started again before it is announced again. -/
structure DoneOnce (x : ShellM Unit × Snush) (es : List (Happening Call.Ret Event)) : Prop where
  finished : ∀ es₁ h es₂ g y, 0 < g → es = es₁ ++ h :: es₂ → Announces g h →
    ProgRun ShellCall ShellEvent x (es₁ ++ [h]) y →
    (∀ pid p, y.2.procs pid = some p → p.background = true → p.group ≠ g) ∧
      (launching.phase Phase.initial (es₁ ++ [h])).stage.group ≠ some g
  once : ∀ es₁ h es₂ h' es₃ g, 0 < g → es = es₁ ++ h :: es₂ ++ h' :: es₃ → Announces g h →
    Announces g h' → ∃ h₂ ∈ es₂, startsGroup h₂ = some g

variable {lexLine : Str → LexResult × List Token} {n : Nat} {p : ShellM Unit}

theorem mainLoop_grouped (hrun : ShellRun (mainLoop lexLine n) Snush.initial es p s)
    (hgood : launching.Meets Phase.initial ShellCall ShellEvent KeepsGroup
      (mainLoop lexLine n, Snush.initial) es) :
    Grouped es (launching.phase Phase.initial es) s :=
  (mainLoop_invariant (I := Grouped) (fun _ _ _ _ _ _ _ h hmask hstep => h.launches hmask hstep)
    (fun _ _ _ _ _ h hmeets hstep => h.event hmeets hstep) Grouped.initial hrun hgood).1

/-- When the handler announces a group, the group had an entry. -/
theorem entry_of_announces {q q' : ShellM Unit} (hann : Announces g h) (hg : 0 < g)
    (hpos : ∀ e ∈ s.table.entries, 0 < e.pgid)
    (hstep : ProgStep ShellCall ShellEvent (q, s) h (q', s')) :
    ∃ e ∈ s.table.entries, e.pgid = g := by
  obtain ⟨pid, rfl⟩ := hann
  cases hstep with
  | env hevent =>
    generalize htext : some (doneMessage g) = text at hevent
    cases hevent with
    | reap hhandling hzombie =>
      obtain ⟨entry, hfind, hmessage, -⟩ := handleChild_writes htext.symm
      have hmem := List.mem_of_find?_eq_some hfind
      exact ⟨entry, hmem, (doneMessage_inj hg (hpos entry hmem) hmessage).symm⟩

/-- Between launches any event will do. -/
theorem KeepsGroup.of_idle (hidle : φ.stage = .idle) : KeepsGroup φ s e :=
  fun _ _ _ _ _ hgroup => absurd (hidle ▸ hgroup) (by simp [Stage.group])

/-- Events between launches keep to it. -/
theorem meets_between {x : ShellM Unit × Snush}
    (h : launching.Meets Phase.initial ShellCall ShellEvent KeepsGroup x es)
    (hidle : (launching.phase Phase.initial es).stage = .idle) (happened : List Event) :
    launching.Meets Phase.initial ShellCall ShellEvent KeepsGroup x (es ++ happened.map .env) ∧
      (launching.phase Phase.initial (es ++ happened.map .env)).stage = .idle := by
  induction happened using List.reverseRecOn with
  | nil =>
    rw [List.map_nil, List.append_nil]
    exact ⟨h, hidle⟩
  | append_singleton happened e ih =>
    rw [List.map_append, ← List.append_assoc]
    refine ⟨ih.1.snoc fun _ => KeepsGroup.of_idle ih.2, ?_⟩
    rw [List.map_singleton, Discipline.phase_env]
    exact ih.2

theorem done_once (hrun : ShellRun (mainLoop lexLine n) Snush.initial es p s)
    (hgood : launching.Meets Phase.initial ShellCall ShellEvent KeepsGroup
      (mainLoop lexLine n, Snush.initial) es) :
    DoneOnce (mainLoop lexLine n, Snush.initial) es := by
  constructor
  · rintro es₁ h es₂ g ⟨q, t⟩ hg rfl hann hprefix
    have hgood' : launching.Meets Phase.initial ShellCall ShellEvent KeepsGroup
        (mainLoop lexLine n, Snush.initial) (es₁ ++ [h]) := by
      rw [List.append_cons] at hgood
      exact hgood.of_append
    have hgrouped := mainLoop_grouped hprefix hgood'
    obtain ⟨hnone, hstage⟩ := hgrouped.announced g hg ⟨es₁, h, [], rfl, hann, by simp⟩
    refine ⟨fun pid p hp hback hgroup => ?_, hstage⟩
    subst hgroup
    rcases hgrouped.member pid p hp hback with hmem | hfresh
    · exact hnone _ hmem rfl
    · exact hstage (Stage.group_of_fresh hfresh)
  · rintro es₁ h es₂ h' es₃ g hg rfl hann hann'
    by_contra hstart
    obtain ⟨⟨q, t⟩, hprefix, hrest⟩ := hrun.split
    obtain ⟨⟨q', t'⟩, hstep, -⟩ := hrest.of_cons
    have hgrouped := mainLoop_grouped hprefix hgood.of_append
    have hannounced : Announced g (es₁ ++ h :: es₂) :=
      ⟨es₁, h, es₂, rfl, hann, fun h₂ hmem heq => hstart ⟨h₂, hmem, heq⟩⟩
    obtain ⟨entry, hmem, hpgid⟩ := entry_of_announces hann' hg hgrouped.positive hstep
    exact (hgrouped.announced g hg hannounced).1 entry hmem hpgid

/-- A lexer that reads `a | b &` in every line. -/
def readsPipeline (_ : Str) : LexResult × List Token :=
  (.success, [.word [97], .pipe, .word [98], .bg])

/-- The two children end; the group is announced with the second. -/
def bothEnd : List Event :=
  [.exits 100, .deliver, .reap 100 none, .exits 101, .reap 101 (some (doneMessage 100))]

/-- `a | b &` at the first prompt; at the second both children end. -/
theorem done_once_two : ∃ (p : ShellM Unit) (s : Snush) (es : List (Happening Call.Ret Event)),
    ShellRun (mainLoop readsPipeline 2) Snush.initial (es ++ bothEnd.map .env) p s ∧
    DoneOnce (mainLoop readsPipeline 2, Snush.initial) (es ++ bothEnd.map .env) := by
  have hrun : ∃ (p : ShellM Unit) (s t : Snush) (es : List (Happening Call.Ret Event)),
      ShellRun (mainLoop readsPipeline 2) Snush.initial es p s ∧
      (∀ e, .env e ∉ es) ∧ (launching.phase Phase.initial es).stage = .idle ∧
      ShellRun p s (bothEnd.map .env) p t := by
    apply Exists.intro
    apply Exists.intro
    apply Exists.intro
    apply Exists.intro
    apply And.intro
    · apply ProgRun.called Call.checkBgStatus () rfl ⟨rfl, rfl⟩
      apply ProgRun.called (Call.printf "% ") () rfl ⟨rfl, rfl⟩
      apply ProgRun.called Call.fgets (some [97, 32, 124, 32, 98, 32, 38, 10]) rfl ⟨rfl, rfl⟩
      apply ProgRun.called Call.bgArrayIdx (0 : Int) rfl ⟨rfl, rfl, rfl⟩
      apply ProgRun.called Call.pipe (some (5, 6)) rfl ⟨rfl, rfl⟩
      apply ProgRun.called (Call.fork ⟨true, none, false⟩) (100 : Int) rfl
        ⟨rfl, Or.inl ⟨by decide, rfl, rfl⟩⟩
      apply ProgRun.called Call.sigBlock (0, false) rfl ⟨rfl, rfl, rfl⟩
      apply ProgRun.called (Call.storePid 100) () rfl ⟨rfl, rfl⟩
      apply ProgRun.called (Call.storePgid 100) () rfl ⟨rfl, rfl⟩
      apply ProgRun.called Call.incIdx () rfl ⟨rfl, rfl⟩
      apply ProgRun.called (Call.sigSetmask false) (0 : Int) rfl ⟨rfl, rfl, rfl⟩
      apply ProgRun.called (Call.fork ⟨true, some 100, true⟩) (101 : Int) rfl
        ⟨rfl, Or.inl ⟨by decide, rfl, rfl⟩⟩
      apply ProgRun.called Call.sigBlock (0, false) rfl ⟨rfl, rfl, rfl⟩
      apply ProgRun.called (Call.storePid 101) () rfl ⟨rfl, rfl⟩
      apply ProgRun.called (Call.storePgid 100) () rfl ⟨rfl, rfl⟩
      apply ProgRun.called Call.incIdx () rfl ⟨rfl, rfl⟩
      apply ProgRun.called (Call.sigSetmask false) (0 : Int) rfl ⟨rfl, rfl, rfl⟩
      exact Run.nil _
    · refine ⟨by simp, rfl, ?_⟩
      apply ProgRun.happened (Event.exits 100) (ShellEvent.exits rfl rfl)
      apply ProgRun.happened Event.deliver (ShellEvent.deliver rfl rfl rfl)
      apply ProgRun.happened (Event.reap 100 _) (ShellEvent.reap rfl ⟨_, rfl, rfl⟩)
      apply ProgRun.happened (Event.exits 101) (ShellEvent.exits rfl rfl)
      apply ProgRun.happened (Event.reap 101 _) (ShellEvent.reap rfl ⟨_, rfl, rfl⟩)
      exact Run.nil _
  obtain ⟨p, s, t, es, hrun, hnone, hidle, hevents⟩ := hrun
  have hwhole := hrun.trans hevents
  exact ⟨p, t, es, hwhole,
    done_once hwhole (meets_between (Discipline.Meets.of_no_env hnone) hidle bothEnd).1⟩

/-- `a | b &`, where `a` ends before `b` is forked: the group is announced then, and again when `b`
    ends. -/
theorem done_announced_early : ¬ ∀ (lexLine : Str → LexResult × List Token) (n : Nat)
    (es : List (Happening Call.Ret Event)) (p : ShellM Unit) (s : Snush),
    ShellRun (mainLoop lexLine n) Snush.initial es p s →
      DoneOnce (mainLoop lexLine n, Snush.initial) es := by
  intro hall
  have hrun : ∃ (p : ShellM Unit) (s : Snush) (es₁ : List (Happening Call.Ret Event)),
      ShellRun (mainLoop readsPipeline 2) Snush.initial es₁ p s ∧
      ∃ (p' : ShellM Unit) (s' : Snush) (es₂ : List (Happening Call.Ret Event)),
        ShellRun p s (.env (.reap 100 (some (doneMessage 100))) ::
          es₂ ++ [.env (.reap 101 (some (doneMessage 100)))]) p' s' ∧
        ∀ h ∈ es₂, startsGroup h ≠ some 100 := by
    apply Exists.intro
    apply Exists.intro
    apply Exists.intro
    apply And.intro
    · apply ProgRun.called Call.checkBgStatus () rfl ⟨rfl, rfl⟩
      apply ProgRun.called (Call.printf "% ") () rfl ⟨rfl, rfl⟩
      apply ProgRun.called Call.fgets (some [97, 32, 124, 32, 98, 32, 38, 10]) rfl ⟨rfl, rfl⟩
      apply ProgRun.called Call.bgArrayIdx (0 : Int) rfl ⟨rfl, rfl, rfl⟩
      apply ProgRun.called Call.pipe (some (5, 6)) rfl ⟨rfl, rfl⟩
      apply ProgRun.called (Call.fork ⟨true, none, false⟩) (100 : Int) rfl
        ⟨rfl, Or.inl ⟨by decide, rfl, rfl⟩⟩
      apply ProgRun.called Call.sigBlock (0, false) rfl ⟨rfl, rfl, rfl⟩
      apply ProgRun.called (Call.storePid 100) () rfl ⟨rfl, rfl⟩
      apply ProgRun.called (Call.storePgid 100) () rfl ⟨rfl, rfl⟩
      apply ProgRun.called Call.incIdx () rfl ⟨rfl, rfl⟩
      apply ProgRun.called (Call.sigSetmask false) (0 : Int) rfl ⟨rfl, rfl, rfl⟩
      apply ProgRun.happened (Event.exits 100) (ShellEvent.exits rfl rfl)
      apply ProgRun.happened Event.deliver (ShellEvent.deliver rfl rfl rfl)
      exact Run.nil _
    · apply Exists.intro
      apply Exists.intro
      apply Exists.intro
      apply And.intro
      · apply ProgRun.happened (Event.reap 100 _) (ShellEvent.reap rfl ⟨_, rfl, rfl⟩)
        apply Run.trans
        · apply ProgRun.happened Event.finish (ShellEvent.finish rfl fun pid ⟨q, hq, _⟩ =>
            absurd hq (by simp [Snush.setTable, Snush.setProc, Snush.setBlocked, Snush.initial]))
          apply ProgRun.called (Call.fork ⟨true, some 100, true⟩) (101 : Int) rfl
            ⟨rfl, Or.inl ⟨by decide, rfl, rfl⟩⟩
          apply ProgRun.called Call.sigBlock (0, false) rfl ⟨rfl, rfl, rfl⟩
          apply ProgRun.called (Call.storePid 101) () rfl ⟨rfl, rfl⟩
          apply ProgRun.called (Call.storePgid 100) () rfl ⟨rfl, rfl⟩
          apply ProgRun.called Call.incIdx () rfl ⟨rfl, rfl⟩
          apply ProgRun.called (Call.sigSetmask false) (0 : Int) rfl ⟨rfl, rfl, rfl⟩
          apply ProgRun.called (Call.close 5) (0 : Int) rfl ⟨rfl, rfl⟩
          apply ProgRun.called (Call.close 6) (0 : Int) rfl ⟨rfl, rfl⟩
          apply ProgRun.called (Call.printf _) () rfl ⟨rfl, rfl⟩
          apply ProgRun.happened (Event.exits 101) (ShellEvent.exits rfl rfl)
          apply ProgRun.happened Event.deliver (ShellEvent.deliver rfl rfl rfl)
          exact Run.nil _
        · exact Run.single (.env (ShellEvent.reap rfl ⟨_, rfl, rfl⟩))
      · simp [startsGroup]
  obtain ⟨p, s, es₁, hfirst, p', s', es₂, hsecond, hnone⟩ := hrun
  have hdone := hall _ _ _ _ _ (hfirst.trans hsecond)
  obtain ⟨h, hmem, hstart⟩ := hdone.once es₁ _ es₂ _ [] 100 (by decide) (by simp) ⟨100, rfl⟩
    ⟨101, rfl⟩
  exact hnone h hmem hstart

end SnuSysProg.Shell
