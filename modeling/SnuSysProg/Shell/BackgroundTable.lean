import SnuSysProg.Shell.Steps

/-
  The table of background processes.

  A child that ends before it is in the table may be reaped by the handler, which finds no entry;
  the main thread stores it afterwards, and nothing ever takes it out. As long as this does not
  happen, the entries are the background children that have not been reaped
  (`table_background`).
-/

namespace SnuSysProg.Shell
open SnuSysProg.Lib

/-- `some true`: a background child that has not been reaped. -/
def Snush.background (s : Snush) (pid : Int) : Option Bool := (s.procs pid).map Proc.background

/-- The entries of the table are the background children, but for one that is being registered. -/
structure Tracked (φ : Phase) (s : Snush) : Prop where
  nodup : (s.table.entries.map BgProcess.pid).Nodup
  unreaped : ∀ e ∈ s.table.entries, s.background e.pid = some true
  listed : ∀ pid, s.background pid = some true →
    pid ∈ s.table.entries.map BgProcess.pid ∨ ∃ group, φ.stage.fresh = some (pid, group)
  fresh : ∀ pid group, φ.stage.fresh = some (pid, group) →
    s.background pid = some true ∧ pid ∉ s.table.entries.map BgProcess.pid
  waitable : ∀ pid ∈ φ.waitable, s.background pid ≠ some true

variable {φ φ' : Phase} {s s' : Snush} {c : Call} {g : Option Int} {e : Event} {pid : Int}
  {p : Option Proc} {entry : BgProcess} {t : Table}

theorem background_setProc : (s.setProc pid p).background =
    Function.update s.background pid (p.map Proc.background) :=
  Function.comp_update (Option.map Proc.background) s.procs pid p

theorem background_of_free (h : s.procs pid = none) : s.background pid = none := by
  unfold Snush.background
  rw [h]
  rfl

theorem Tracked.initial : Tracked Phase.initial Snush.initial where
  nodup := List.nodup_nil
  unreaped := fun _ he => absurd he (by simp [Snush.initial, Table.entries_initial])
  listed := fun _ h => absurd h (by simp [Snush.background, Snush.initial])
  fresh := fun _ _ h => absurd h (by simp [Phase.initial, Stage.fresh])
  waitable := fun _ h => absurd h (by simp [Phase.initial])

/-- Another phase with the same child to be registered. -/
theorem Tracked.congr (h : Tracked φ s) (hentries : s'.table.entries = s.table.entries)
    (hback : s'.background = s.background) (hfresh : φ'.stage.fresh = φ.stage.fresh)
    (hwaitable : φ'.waitable = φ.waitable) : Tracked φ' s' := by
  obtain ⟨hnodup, hunreaped, hlisted, hfresh', hwaitable'⟩ := h
  constructor
  · rwa [hentries]
  · rwa [hentries, hback]
  · rwa [hentries, hback, hfresh]
  · rwa [hentries, hback, hfresh]
  · rwa [hback, hwaitable]

/-- A new background child, to be registered. -/
theorem Tracked.forked (h : Tracked φ s) (hfree : s.procs pid = none)
    (hnone : φ.stage.fresh = none) {group : Int} {more : Bool} :
    Tracked ⟨.forked pid group more, []⟩ (s.setProc pid (some ⟨true, true, group⟩)) := by
  have hpid := background_of_free hfree
  have hnot : pid ∉ s.table.entries.map BgProcess.pid := by
    intro hmem
    obtain ⟨e, he, rfl⟩ := List.mem_map.mp hmem
    exact absurd ((h.unreaped e he).symm.trans hpid) (by simp)
  constructor
  · exact h.nodup
  · intro e he
    have hne : e.pid ≠ pid := fun heq => hnot (List.mem_map.mpr ⟨e, he, heq⟩)
    rw [background_setProc, Function.update_of_ne hne]
    exact h.unreaped e he
  · intro x hx
    by_cases hxp : x = pid
    · exact Or.inr ⟨group, by rw [hxp]; rfl⟩
    · rw [background_setProc, Function.update_of_ne hxp] at hx
      rcases h.listed x hx with hmem | ⟨group', hfresh⟩
      · exact Or.inl hmem
      · exact absurd (hnone.symm.trans hfresh) (by simp)
  · intro x group' hfresh
    obtain ⟨rfl, -⟩ := Prod.mk.inj (Option.some.inj hfresh)
    rw [background_setProc, Function.update_self]
    exact ⟨rfl, hnot⟩
  · exact fun _ hx => absurd hx (by simp)

theorem Tracked.launches (h : Tracked φ s) (hmask : Mask φ s) (hstep : Launches φ s g φ' s') :
    Tracked φ' s' := by
  cases hstep with
  | quiet => exact h
  | failed hfresh => exact h.congr rfl rfl hfresh.symm rfl
  | leader hpos hfree => exact h.forked hfree rfl
  | member hpos hfree => exact h.forked hfree rfl
  | @foreground w _ r group hfree =>
    have hback := background_of_free hfree
    have hsame : ∀ x, (s.setProc r (some ⟨true, false, group⟩)).background x = some true ↔
        s.background x = some true := by
      intro x
      by_cases hx : x = r
      · simp [background_setProc, hx, hback]
      · rw [background_setProc, Function.update_of_ne hx]
    refine ⟨h.nodup, fun e he => (hsame _).mpr (h.unreaped e he),
      fun x hx => h.listed x ((hsame x).mp hx), fun x _ hf => absurd hf (by simp [Stage.fresh]),
      fun x hx hx' => ?_⟩
    rcases List.mem_cons.mp hx with rfl | hx
    · exact absurd (hback.symm.trans ((hsame x).mp hx')) (by simp)
    · exact h.waitable x hx ((hsame x).mp hx')
  | mask => exact h.congr rfl rfl rfl rfl
  | guard => exact h.congr rfl rfl rfl rfl
  | storePid => exact h.congr Table.entries_setPid rfl rfl rfl
  | storePgid => exact h.congr Table.entries_setPgid rfl rfl rfl
  | @count w _ pid group more =>
    obtain ⟨hback, hnot⟩ := h.fresh pid group rfl
    have hentries := hmask.entries_count
    constructor
    · rw [hentries, List.map_append]
      exact List.Nodup.append h.nodup (List.nodup_singleton _)
        (List.disjoint_singleton.mpr hnot)
    · intro e he
      rw [hentries] at he
      rcases List.mem_append.mp he with he | he
      · exact h.unreaped e he
      · obtain rfl := List.mem_singleton.mp he
        exact hback
    · intro x hx
      rw [hentries, List.map_append]
      rcases h.listed x hx with hmem | ⟨group', hfresh⟩
      · exact Or.inl (List.mem_append_left _ hmem)
      · obtain ⟨rfl, -⟩ := Prod.mk.inj (Option.some.inj hfresh)
        exact Or.inl (List.mem_append_right _ (List.mem_singleton.mpr rfl))
    · exact fun x group' hfresh => absurd hfresh (by simp [Stage.fresh])
    · exact h.waitable
  | unmask => exact h.congr rfl rfl rfl rfl
  | @unguard _ _ group more =>
    cases more with
    | true => exact h.congr rfl rfl rfl rfl
    | false => exact h.congr rfl rfl rfl rfl
  | @waited _ _ pid hmem =>
    have hsame : ∀ x, (s.setProc pid none).background x = some true ↔
        s.background x = some true := by
      intro x
      by_cases hx : x = pid
      · subst hx
        simp [background_setProc, h.waitable x hmem]
      · rw [background_setProc, Function.update_of_ne hx]
    exact ⟨h.nodup, fun e he => (hsame _).mpr (h.unreaped e he),
      fun x hx => h.listed x ((hsame x).mp hx),
      fun x group hf => ⟨(hsame x).mpr (h.fresh x group hf).1, (h.fresh x group hf).2⟩,
      fun x hx hx' => h.waitable x hx ((hsame x).mp hx')⟩

/-- The handler does not reap a background child that is not in the table yet. -/
def RegisteredFirst (φ : Phase) (_ : Snush) (e : Event) : Prop :=
  ∀ pid text group, e = .reap pid text → φ.stage.fresh ≠ some (pid, group)

theorem mem_pids_eraseP {l : List BgProcess} {x : Int} (hx : x ≠ pid) :
    x ∈ (l.eraseP fun e => e.pid = pid).map BgProcess.pid ↔ x ∈ l.map BgProcess.pid := by
  rw [List.mem_map, List.mem_map]
  constructor
  · rintro ⟨e, he, rfl⟩
    exact ⟨e, List.mem_of_mem_eraseP he, rfl⟩
  · rintro ⟨e, he, rfl⟩
    exact ⟨e, (List.mem_eraseP_of_neg (by simpa using hx)).mpr he, rfl⟩

theorem notMem_pids_eraseP {l : List BgProcess} (hl : (l.map BgProcess.pid).Nodup) :
    pid ∉ (l.eraseP fun e => e.pid = pid).map BgProcess.pid := by
  have hmap : (l.eraseP fun e => e.pid = pid).map BgProcess.pid =
      (l.map BgProcess.pid).erase pid := by
    rw [List.erase_eq_eraseP', List.eraseP_map]
    rfl
  rw [hmap]
  exact hl.not_mem_erase

theorem Tracked.event (h : Tracked φ s) (hgood : RegisteredFirst φ s e)
    (hstep : ShellEvent s e s') : Tracked φ s' := by
  cases hstep with
  | @exits pid p hproc hrunning =>
    refine h.congr rfl ?_ rfl rfl
    change (s.setProc pid (some { p with running := false })).background = s.background
    have hback : s.background pid = some p.background := by
      unfold Snush.background
      rw [hproc]
      rfl
    rw [background_setProc]
    exact Function.update_eq_self_iff.mpr hback.symm
  | deliver => exact h.congr rfl rfl rfl rfl
  | finish => exact h.congr rfl rfl rfl rfl
  | @reap pid hhandling hzombie =>
    have hentries : ((s.setProc pid none).setTable (handleChild s.table pid).1).table.entries =
        s.table.entries.eraseP fun e => e.pid = pid := handleChild_entries
    have hback : ((s.setProc pid none).setTable (handleChild s.table pid).1).background =
        Function.update s.background pid none := background_setProc
    have hnot : pid ∉ (s.table.entries.eraseP fun e => e.pid = pid).map BgProcess.pid :=
      notMem_pids_eraseP h.nodup
    constructor
    · rw [hentries]
      exact h.nodup.sublist (List.eraseP_sublist.map _)
    · intro e he
      rw [hentries] at he
      have hne : e.pid ≠ pid := fun heq => hnot (List.mem_map.mpr ⟨e, he, heq⟩)
      rw [hback, Function.update_of_ne hne]
      exact h.unreaped e (List.mem_of_mem_eraseP he)
    · intro x hx
      have hne : x ≠ pid := by
        rintro rfl
        rw [hback, Function.update_self] at hx
        exact absurd hx (by simp)
      rw [hback, Function.update_of_ne hne] at hx
      rw [hentries, mem_pids_eraseP hne]
      exact h.listed x hx
    · intro x group hfresh
      have hne : x ≠ pid := by
        rintro rfl
        exact hgood x _ group rfl hfresh
      rw [hback, Function.update_of_ne hne, hentries, mem_pids_eraseP hne]
      exact h.fresh x group hfresh
    · intro x hx hx'
      by_cases hne : x = pid
      · rw [hback, hne, Function.update_self] at hx'
        exact absurd hx' (by simp)
      · rw [hback, Function.update_of_ne hne] at hx'
        exact h.waitable x hx hx'

/-- The table holds the background children that have not been reaped, each once. -/
def HoldsBackground (s : Snush) : Prop :=
  (∀ e ∈ s.table.entries, s.background e.pid = some true) ∧
    ∀ pid, s.background pid = some true → (s.table.entries.map BgProcess.pid).count pid = 1

variable {lexLine : Str → LexResult × List Token} {n : Nat} {p' : ShellM Unit}
  {es : List (Happening Call.Ret Event)}

theorem table_background (hrun : ShellRun (mainLoop lexLine n) Snush.initial es p' s)
    (hgood : launching.Meets Phase.initial ShellCall ShellEvent RegisteredFirst
      (mainLoop lexLine n, Snush.initial) es)
    (hprompt : p'.next = some .fgets) : HoldsBackground s := by
  obtain ⟨htracked, hidle⟩ := mainLoop_invariant (I := fun _ => Tracked)
    (fun _ _ _ _ _ _ _ h hmask hstep => h.launches hmask hstep)
    (fun _ _ _ _ _ h hmeets hstep => h.event hmeets hstep) Tracked.initial hrun hgood
  refine ⟨htracked.unreaped, fun pid hpid => List.count_eq_one_of_mem htracked.nodup ?_⟩
  rcases htracked.listed pid hpid with hmem | ⟨group, hfresh⟩
  · exact hmem
  · rw [hidle hprompt] at hfresh
    exact absurd hfresh (by simp [Stage.fresh])

/-- `a &` at the first prompt, and the second prompt. -/
theorem table_background_one : ∃ (p : ShellM Unit) (s : Snush)
    (es : List (Happening Call.Ret Event)),
    ShellRun (mainLoop (fun _ => (.success, [.word [97], .bg])) 2) Snush.initial es p s ∧
      s.table.entries = [⟨100, 100⟩] ∧ HoldsBackground s := by
  have hrun : ∃ (p : ShellM Unit) (s : Snush) (es : List (Happening Call.Ret Event)),
      ShellRun (mainLoop (fun _ => (.success, [.word [97], .bg])) 2) Snush.initial es p s ∧
      p.next = some .fgets ∧ s.table.entries = [⟨100, 100⟩] ∧ ∀ e, .env e ∉ es := by
    apply Exists.intro
    apply Exists.intro
    apply Exists.intro
    apply And.intro
    · apply ProgRun.called Call.checkBgStatus () rfl ⟨rfl, rfl⟩
      apply ProgRun.called (Call.printf "% ") () rfl ⟨rfl, rfl⟩
      apply ProgRun.called Call.fgets (some [97, 32, 38, 10]) rfl ⟨rfl, rfl⟩
      apply ProgRun.called Call.bgArrayIdx (0 : Int) rfl ⟨rfl, rfl, rfl⟩
      apply ProgRun.called (Call.fork ⟨true, none, true⟩) (100 : Int) rfl
        ⟨rfl, Or.inl ⟨by decide, rfl, rfl⟩⟩
      apply ProgRun.called Call.sigBlock (0, false) rfl ⟨rfl, rfl, rfl⟩
      apply ProgRun.called (Call.storePid 100) () rfl ⟨rfl, rfl⟩
      apply ProgRun.called (Call.storePgid 100) () rfl ⟨rfl, rfl⟩
      apply ProgRun.called Call.incIdx () rfl ⟨rfl, rfl⟩
      apply ProgRun.called (Call.sigSetmask false) (0 : Int) rfl ⟨rfl, rfl, rfl⟩
      apply ProgRun.called (Call.printf _) () rfl ⟨rfl, rfl⟩
      apply ProgRun.called Call.checkBgStatus () rfl ⟨rfl, rfl⟩
      apply ProgRun.called (Call.printf "% ") () rfl ⟨rfl, rfl⟩
      exact Run.nil _
    · refine ⟨rfl, rfl, ?_⟩
      simp
  obtain ⟨p, s, es, hrun, hprompt, htable, hnone⟩ := hrun
  refine ⟨p, s, es, hrun, htable, table_background hrun ?_ hprompt⟩
  rintro es₁ e es₂ y rfl -
  exact absurd (by simp) (hnone e)

/-- `a &`, where the child ends and is reaped before SIGCHLD is blocked: its entry stays. -/
theorem table_keeps_dead_process : ¬ ∀ (lexLine : Str → LexResult × List Token) (n : Nat)
    (es : List (Happening Call.Ret Event)) (p : ShellM Unit) (s : Snush),
    ShellRun (mainLoop lexLine n) Snush.initial es p s → p.next = some .fgets →
      s.pending = false → HoldsBackground s := by
  intro hall
  have hrun : ∃ (p : ShellM Unit) (s : Snush) (es : List (Happening Call.Ret Event)),
      ShellRun (mainLoop (fun _ => (.success, [.word [97], .bg])) 2) Snush.initial es p s ∧
      p.next = some .fgets ∧ s.pending = false ∧ ⟨100, 100⟩ ∈ s.table.entries ∧
        s.background 100 = none := by
    apply Exists.intro
    apply Exists.intro
    apply Exists.intro
    apply And.intro
    · apply ProgRun.called Call.checkBgStatus () rfl ⟨rfl, rfl⟩
      apply ProgRun.called (Call.printf "% ") () rfl ⟨rfl, rfl⟩
      apply ProgRun.called Call.fgets (some [97, 32, 38, 10]) rfl ⟨rfl, rfl⟩
      apply ProgRun.called Call.bgArrayIdx (0 : Int) rfl ⟨rfl, rfl, rfl⟩
      apply ProgRun.called (Call.fork ⟨true, none, true⟩) (100 : Int) rfl
        ⟨rfl, Or.inl ⟨by decide, rfl, rfl⟩⟩
      apply ProgRun.happened (Event.exits 100) (ShellEvent.exits rfl rfl)
      apply ProgRun.happened Event.deliver (ShellEvent.deliver rfl rfl rfl)
      apply ProgRun.happened (Event.reap 100 none) (ShellEvent.reap rfl ⟨_, rfl, rfl⟩)
      apply ProgRun.happened Event.finish (ShellEvent.finish rfl fun pid ⟨q, hq, _⟩ =>
        absurd hq (by simp [Snush.setTable, Snush.setProc, Snush.initial]))
      apply ProgRun.called Call.sigBlock (0, false) rfl ⟨rfl, rfl, rfl⟩
      apply ProgRun.called (Call.storePid 100) () rfl ⟨rfl, rfl⟩
      apply ProgRun.called (Call.storePgid 100) () rfl ⟨rfl, rfl⟩
      apply ProgRun.called Call.incIdx () rfl ⟨rfl, rfl⟩
      apply ProgRun.called (Call.sigSetmask false) (0 : Int) rfl ⟨rfl, rfl, rfl⟩
      apply ProgRun.called (Call.printf _) () rfl ⟨rfl, rfl⟩
      apply ProgRun.called Call.checkBgStatus () rfl ⟨rfl, rfl⟩
      apply ProgRun.called (Call.printf "% ") () rfl ⟨rfl, rfl⟩
      exact Run.nil _
    · refine ⟨rfl, rfl, ?_, rfl⟩
      exact List.mem_singleton.mpr rfl
  obtain ⟨p, s, es, hrun, hprompt, hpending, hentry, hdead⟩ := hrun
  have hholds := hall _ _ _ _ _ hrun hprompt hpending
  exact absurd ((hholds.1 _ hentry).symm.trans hdead) (by simp)

end SnuSysProg.Shell
