import SnuSysProg.Shell.Calls
import SnuSysProg.Shell.Interleaving

/-
  `bg_array` is not accessed out of bounds.

  `shell_helper` looks at `bg_array_idx` once before a background command, which then registers its
  children one by one. It obeys every discipline in whose phases there is room for the children
  (`Registering`); in `bounded` the phase is how many children may still be registered. The handler
  only takes entries out, so the counter and the children to come never exceed the size of the array
  (`table_bounded`). Here `sigprocmask` may fail too.
-/

namespace SnuSysProg.Shell
open SnuSysProg.Lib

/-! ## The elements that are accessed -/

/-- A loop over the entries that ends at the first one with `p`. -/
def Table.scanned (t : Table) (p : BgProcess → Bool) : List Nat :=
  match t.entries.findIdx? p with
  | some i => List.range (i + 1)
  | none => List.range t.idx

/-- `bg_array[i] = bg_array[i + 1]`, as often as in `shiftLoop`. -/
def shiftAccesses : Nat → Nat → List Nat
  | 0, _ => []
  | n + 1, i => (i + 1) :: i :: shiftAccesses n (i + 1)

/-- The elements that the handler reads and writes for one child. -/
def handleChildAccesses (t : Table) (pid : Int) : List Nat :=
  t.scanned (fun e => e.pid = pid) ++
    match t.findPid pid with
    | none => []
    | some found => found :: shiftAccesses (t.idx - 1 - found) found ++
        (t.remove found).scanned (fun e => e.pgid = (t.arr found).pgid)

/-- The elements of `bg_array` that a step reads and writes. -/
def accesses (t : Table) : Happening Call.Ret Event → List Nat
  | .call (.storePid _) _ => [t.idx]
  | .call (.storePgid _) _ => [t.idx]
  | .env (.reap pid _) => handleChildAccesses t pid
  | _ => []

/-- A call, where `sigprocmask` may fail. -/
def MayFail (s : Snush) (c : Call) (r : c.Ret) (s' : Snush) : Prop :=
  ShellCall s c r s' ∨ s.handling = false ∧ s' = s ∧ match c, r with
    | .sigBlock, r => r.1 = -1
    | .sigSetmask _, r => r = -1
    | _, _ => False

/-! ## The discipline -/

/-- The phase is the number of children that may be registered. -/
def bounded : Discipline Call.Ret Nat where
  allowed := fun room c => match c with
    | .storePid _ => 0 < room
    | .storePgid _ => 0 < room
    | .incIdx => 0 < room
    | _ => True
  answer := fun _ c => match c with
    | .fork _ => fun r => r = -1 ∨ 0 < r
    | _ => fun _ => True
  next := fun room c => match c with
    | .bgArrayIdx => fun r => (maxBgPro - r).toNat
    | .incIdx => fun _ => room - 1
    | _ => fun _ => room

theorem bounded_apart : Apart bounded where
  pipe := fun _ => ⟨trivial, fun _ => rfl⟩
  close := fun _ _ => ⟨trivial, fun _ => rfl⟩
  errorPrint := fun _ _ _ => ⟨trivial, fun _ => rfl⟩
  perror := fun _ _ => ⟨trivial, fun _ => rfl⟩
  printf := fun _ _ => ⟨trivial, fun _ => rfl⟩
  getenvHome := fun _ => ⟨trivial, fun _ => rfl⟩
  chdir := fun _ _ => ⟨trivial, fun _ => rfl⟩
  checkBgStatus := fun _ => ⟨trivial, fun _ => rfl⟩
  exit := fun _ _ => trivial

/-- A background command has `k` children to register. -/
def Room (isBackground : Bool) (k room : Nat) : Prop := isBackground = true → k ≤ room

section
variable {Φ β : Type} {D : Discipline Call.Ret Φ} {room : Φ → Nat} {Pid : Int → Prop} {φ : Φ}
  {R : β → Φ → Prop} {pl : Pipeline} {isBackground : Bool} {pid pgid : Int} {pids : List Int}
  {n i k pcount : Nat} {tokens : List Token}

/-- A discipline with room in its phases for so many children to be registered, where the groups
    are answers of `fork` that are `Pid`. -/
structure Registering (D : Discipline Call.Ret Φ) (room : Φ → Nat) (Pid : Int → Prop) : Prop where
  apart : Apart D
  sigBlock : D.Quiet .sigBlock
  sigSetmask : ∀ oldset, D.Quiet (.sigSetmask oldset)
  waitpid : ∀ pid, D.Quiet (.waitpid pid)
  fork : ∀ φ child, D.allowed φ (.fork child) ∧ ∀ r, D.answer φ (.fork child) r →
    (r = -1 ∨ 0 < r ∧ Pid r) ∧ D.next φ (.fork child) r = φ
  storePid : ∀ φ pid, 0 < room φ →
    D.allowed φ (.storePid pid) ∧ ∀ r, D.next φ (.storePid pid) r = φ
  storePgid : ∀ φ pgid, 0 < room φ → Pid pgid →
    D.allowed φ (.storePgid pgid) ∧ ∀ r, D.next φ (.storePgid pgid) r = φ
  incIdx : ∀ φ, 0 < room φ →
    D.allowed φ .incIdx ∧ ∀ r, room φ ≤ room (D.next φ .incIdx r) + 1

theorem register_registers (hD : Registering D room Pid) (hpgid : Pid pgid)
    (h : k + 1 ≤ room φ) : Obeys D (fun _ φ' => k ≤ room φ') (register pid pgid) φ := by
  have hpos : 0 < room φ := by omega
  obtain ⟨hpid, hpidnext⟩ := hD.storePid φ pid hpos
  obtain ⟨hpg, hpgnext⟩ := hD.storePgid φ pgid hpos hpgid
  obtain ⟨hinc, hincnext⟩ := hD.incIdx φ hpos
  refine Obeys.perform hpid fun r _ => ?_
  rw [hpidnext r]
  refine Obeys.perform hpg fun r _ => ?_
  rw [hpgnext r]
  refine Obeys.call hinc fun r _ => ?_
  have hroom := hincnext r
  have hnext : k ≤ room (D.next φ .incIdx r) := by omega
  exact hnext

theorem fork_registers (hD : Registering D room Pid) {child : Child} {f : Int → ShellM β}
    (hfail : Obeys D R (f (-1)) φ) (hpid : ∀ pid, 0 < pid → Pid pid → Obeys D R (f pid) φ) :
    Obeys D R (fork child >>= f) φ := by
  obtain ⟨hallowed, hanswer⟩ := hD.fork φ child
  refine Obeys.perform hallowed fun r hr => ?_
  obtain ⟨hr, hnext⟩ := hanswer r hr
  rw [hnext]
  rcases hr with hr | hr
  · obtain rfl : r = (-1 : Int) := hr
    exact hfail
  · exact hpid r hr.1 hr.2

theorem afterFork_registers (hD : Registering D room Pid) (hpgid : Pid pgid)
    (h : Room isBackground (k + 1) (room φ)) :
    Obeys D (fun _ φ' => Room isBackground k (room φ')) (afterFork pl isBackground pid pgid) φ := by
  have hfail : ∀ {φ : Φ} text, Room isBackground k (room φ) →
      Obeys D (fun _ φ' => Room isBackground k (room φ')) (do
        closeAllPipes pl.pipeFds
        errorPrint (.text text) .perror
        return false) φ := by
    intro φ text hroom
    refine Obeys.bind (closeAllPipes_obeys hD.apart) ?_
    rintro _ φ rfl
    exact errorPrint_obeys hD.apart (Obeys.ret hroom)
  have hweak : Room isBackground k (room φ) := fun hback => Nat.le_of_succ_le (h hback)
  have hrest : ∀ {φ : Φ} {oldset : Bool}, Room isBackground k (room φ) →
      Obeys D (fun _ φ' => Room isBackground k (room φ')) (do
        if (← sigSetmask oldset) < 0 then
          closeAllPipes pl.pipeFds
          errorPrint (.text "Failed to restore signal mask") .perror
          return false
        return true) φ := fun {φ oldset} hroom =>
    Obeys.quiet (hD.sigSetmask oldset) fun _ =>
      Obeys.ite (fun _ => hfail _ hroom) fun _ => Obeys.ret hroom
  refine Obeys.quiet hD.sigBlock fun r => ?_
  refine Obeys.ite (fun _ => hfail _ hweak) fun _ => ?_
  refine Obeys.ite (fun hback => ?_) fun _ => hrest hweak
  exact Obeys.bind (register_registers hD hpgid (h hback)) fun _ φ' hroom => hrest fun _ => hroom

theorem middleLoop_registers (hD : Registering D room Pid) (hpgid : Pid pgid)
    (h : Room isBackground (n + k) (room φ)) :
    Obeys D (fun r φ' => ∀ pids', r = some pids' → Room isBackground k (room φ'))
      (middleLoop pl isBackground pgid n i pids) φ := by
  induction n generalizing φ i pids with
  | zero =>
    rw [Nat.zero_add] at h
    exact Obeys.ret fun _ _ => h
  | succ n ih =>
    rw [Nat.add_right_comm] at h
    refine fork_registers hD ?_ fun pid hpid _ => ?_
    · refine Obeys.ite_pos (by decide) ?_
      exact errorPrint_obeys hD.apart (Obeys.ret (by simp))
    · refine parent_obeys hpid ?_
      refine Obeys.bind (afterFork_registers hD hpgid h) fun goOn φ' hroom => ?_
      exact Obeys.ite (fun _ => Obeys.ret (by simp)) fun _ => ih hroom

theorem waitLoop_registers (hD : Registering D room Pid) :
    Obeys D (fun _ _ => True) (waitLoop pids) φ := by
  induction pids with
  | nil => exact Obeys.ret trivial
  | cons pid pids ih =>
    refine Obeys.quiet (hD.waitpid pid) fun r => ?_
    refine Obeys.ite (fun _ => ?_) fun _ => ih
    exact Obeys.ite (fun _ => errorPrint_obeys hD.apart (Obeys.ret trivial)) fun _ => ih

theorem otherChildren_registers (hD : Registering D room Pid) (hpgid : Pid pgid)
    (h : Room isBackground (pcount - 1 + 1) (room φ)) :
    Obeys D (fun _ _ => True)
      (otherChildren pl isBackground pcount pgid) φ := by
  refine Obeys.bind (middleLoop_registers hD hpgid h) fun r φ' hr => ?_
  cases r with
  | none => exact Obeys.ret trivial
  | some pids =>
    refine fork_registers hD ?_ fun pid hpid _ => ?_
    · refine Obeys.ite_pos (by decide) ?_
      exact errorPrint_obeys hD.apart (Obeys.ret trivial)
    · refine parent_obeys hpid ?_
      refine Obeys.bind (afterFork_registers hD hpgid (hr pids rfl)) fun goOn φ'' _ => ?_
      refine Obeys.ite (fun _ => Obeys.ret trivial) fun _ => ?_
      refine Obeys.bind (closeAllPipes_obeys hD.apart) fun _ _ _ => ?_
      refine Obeys.ite (fun _ => Obeys.ret trivial) fun _ => ?_
      refine Obeys.bind (waitLoop_registers hD) fun ok _ _ => ?_
      exact Obeys.ite (fun _ => Obeys.ret trivial) fun _ => Obeys.ret trivial

theorem iterPipeForkExec_registers (hD : Registering D room Pid) (hpos : 1 ≤ pcount)
    (h : Room isBackground (pcount + 1) (room φ)) :
    Obeys D (fun _ _ => True) (iterPipeForkExec pcount tokens isBackground) φ := by
  refine Obeys.bind (pipeLoop_obeys hD.apart) ?_
  rintro r φ rfl
  cases r with
  | none => exact Obeys.ret trivial
  | some pipeFds =>
    refine fork_registers hD ?_ fun pgid hpos' hpgid => ?_
    · refine Obeys.ite_pos (by decide) ?_
      exact errorPrint_obeys hD.apart (Obeys.ret trivial)
    · refine parent_obeys hpos' ?_
      refine Obeys.ite (fun hback => ?_) fun hfore => ?_
      · refine Obeys.quiet hD.sigBlock fun r => ?_
        refine Obeys.bind (register_registers hD hpgid (h hback)) fun _ φ' hroom => ?_
        refine Obeys.quiet (hD.sigSetmask _) fun _ => ?_
        exact otherChildren_registers hD hpgid fun _ => by omega
      · exact otherChildren_registers hD hpgid fun hback => absurd hback hfore

theorem forkExec_registers (hD : Registering D room Pid) (h : Room isBackground 1 (room φ)) :
    Obeys D (fun _ _ => True) (forkExec tokens isBackground) φ := by
  refine fork_registers hD ?_ fun pid hpos hpid => ?_
  · refine Obeys.ite_pos (by decide) ?_
    exact errorPrint_obeys hD.apart (Obeys.ret trivial)
  · refine parent_obeys hpos ?_
    refine Obeys.ite (fun hback => ?_) fun _ => ?_
    · refine Obeys.quiet hD.sigBlock fun r => ?_
      refine Obeys.bind (register_registers hD hpid (h hback)) fun _ _ _ => ?_
      exact Obeys.quiet (hD.sigSetmask _) fun _ => Obeys.ret trivial
    · refine Obeys.quiet (hD.waitpid pid) fun r => ?_
      exact Obeys.ite (fun _ => errorPrint_obeys hD.apart (Obeys.ret trivial)) fun _ =>
        Obeys.ret trivial

/-- The test of `shell_helper` leaves room for every child of the command. -/
theorem executeExternal_registers (hD : Registering D room Pid)
    (hask : D.allowed φ .bgArrayIdx)
    (hroom : ∀ r : Int, (maxBgPro - r).toNat ≤ room (D.next φ .bgArrayIdx r)) :
    Obeys D (fun _ _ => True) (executeExternal tokens) φ := by
  have hrun : ∀ {φ : Φ}, Room (checkBg tokens) (countPipe tokens + 1) (room φ) →
      Obeys D (fun _ _ => True) (do
        let retPgid ← if 0 < countPipe tokens then
            iterPipeForkExec (countPipe tokens) tokens (checkBg tokens)
          else forkExec tokens (checkBg tokens)
        if 0 < retPgid then
          if checkBg tokens then
            printf ("[" ++ toString retPgid ++ "] Background process group running\n")
        else printf "Invalid return value of external command execution\n") φ := by
    intro φ hfits
    refine Obeys.ite (fun hpipe => ?_) fun _ => ?_
    · exact Obeys.bind (iterPipeForkExec_registers hD hpipe hfits) fun _ _ _ =>
        (afterLaunch_apart hD.apart).mono fun _ _ _ => trivial
    · refine Obeys.bind (forkExec_registers hD fun hback => ?_) fun _ _ _ =>
        (afterLaunch_apart hD.apart).mono fun _ _ _ => trivial
      have hone := hfits hback
      omega
  unfold executeExternal
  refine Obeys.ite (fun _ => ?_) fun hfore => hrun fun hback => absurd hback hfore
  refine Obeys.perform hask fun r _ => ?_
  refine Obeys.ite (fun _ => printf_obeys hD.apart (Obeys.ret trivial)) fun hfits => ?_
  have hchildren : ∀ a : Int, ¬ a + countPipe tokens + 1 > maxBgPro →
      countPipe tokens + 1 ≤ (maxBgPro - a).toNat := by
    intro a ha
    omega
  exact hrun fun _ => Nat.le_trans (hchildren r hfits) (hroom r)

end

variable {pid : Int} {n i room : Nat} {tokens : List Token}

theorem bounded_registering : Registering bounded id fun _ => True where
  apart := bounded_apart
  sigBlock := fun _ => ⟨trivial, fun _ => rfl⟩
  sigSetmask := fun _ _ => ⟨trivial, fun _ => rfl⟩
  waitpid := fun _ _ => ⟨trivial, fun _ => rfl⟩
  fork := fun _ _ => ⟨trivial, fun _ hr => ⟨hr.imp_right fun hpos => ⟨hpos, trivial⟩, rfl⟩⟩
  storePid := fun _ _ hpos => ⟨hpos, fun _ => rfl⟩
  storePgid := fun _ _ hpos _ => ⟨hpos, fun _ => rfl⟩
  incIdx := fun room hpos => ⟨hpos, fun _ => Nat.le_add_of_sub_le (Nat.le_refl (room - 1))⟩

theorem executeExternal_bounded :
    Obeys bounded (fun _ _ => True) (executeExternal tokens) room :=
  executeExternal_registers bounded_registering trivial fun _ => Nat.le_refl _

/-! ## The bound -/

variable {t : Table} {s s' : Snush} {e : Event} {c : Call} {found j : Nat}

theorem Table.findPid_lt (h : t.findPid pid = some found) : found < t.idx := by
  obtain ⟨hlt, -, -⟩ := List.findIdx?_eq_some_iff_getElem.mp h
  exact Table.length_entries ▸ hlt

theorem Table.scanned_lt {p : BgProcess → Bool} (h : j ∈ t.scanned p) : j < t.idx := by
  unfold Table.scanned at h
  cases hfound : t.entries.findIdx? p with
  | none =>
    rw [hfound] at h
    exact List.mem_range.mp h
  | some i =>
    rw [hfound] at h
    obtain ⟨hlt, -, -⟩ := List.findIdx?_eq_some_iff_getElem.mp hfound
    have hi : i < t.idx := Table.length_entries ▸ hlt
    have hj : j < i + 1 := List.mem_range.mp h
    omega

theorem shiftAccesses_le (h : j ∈ shiftAccesses n i) : j ≤ i + n := by
  induction n generalizing i with
  | zero => exact absurd h List.not_mem_nil
  | succ n ih =>
    rcases List.mem_cons.mp h with rfl | h
    · omega
    · rcases List.mem_cons.mp h with rfl | h
      · omega
      · have hle := ih h
        omega

/-- The handler stays below `bg_array_idx`. -/
theorem handleChildAccesses_lt (h : j ∈ handleChildAccesses t pid) : j < t.idx := by
  unfold handleChildAccesses at h
  rcases List.mem_append.mp h with h | h
  · exact Table.scanned_lt h
  · cases hfound : t.findPid pid with
    | none =>
      rw [hfound] at h
      exact absurd h List.not_mem_nil
    | some found =>
      rw [hfound] at h
      have hlt := Table.findPid_lt hfound
      rcases List.mem_append.mp h with h | h
      · rcases List.mem_cons.mp h with rfl | h
        · exact hlt
        · have hle := shiftAccesses_le h
          omega
      · have hscan : j < t.idx - 1 := Table.scanned_lt h
        omega

theorem handleChild_idx : (handleChild t pid).1.idx ≤ t.idx := by
  unfold handleChild
  cases t.findPid pid with
  | none => exact Nat.le_refl _
  | some found => exact Nat.sub_le _ _

/-- The entries and the children that may still be registered. -/
def Fits (room : Nat) (s : Snush) : Prop := ((s.table.idx + room : Nat) : Int) ≤ maxBgPro

theorem Fits.event (h : Fits room s) (hstep : ShellEvent s e s') : Fits room s' := by
  cases hstep with
  | exits => exact h
  | deliver => exact h
  | @reap pid hhandling hzombie =>
    have hidx : (handleChild s.table pid).1.idx ≤ s.table.idx := handleChild_idx
    have hsum := Nat.add_le_add_right hidx room
    exact Int.le_trans (Int.ofNat_le.mpr hsum) h
  | finish => exact h

theorem Fits.idx_le (h : Fits room s) : s.table.idx + room ≤ 16 := Int.ofNat_le.mp h

theorem Fits.mono {room' : Nat} (h : Fits room s) (hroom : room' ≤ room)
    (htable : s'.table = s.table) : Fits room' s' := by
  unfold Fits
  rw [htable]
  exact Int.le_trans (Int.ofNat_le.mpr (Nat.add_le_add_left hroom _)) h

/-- The counter is looked at. -/
theorem Fits.asked (h : Fits room s) : Fits (maxBgPro - s.table.idx).toNat s := by
  unfold Fits at h ⊢
  omega

/-- A child is registered. -/
theorem Fits.registered (h : Fits room s) (hpos : 0 < room) :
    Fits (room - 1) (s.setTable s.table.incIdx) := by
  have hidx : (s.setTable s.table.incIdx).table.idx = s.table.idx + 1 := rfl
  unfold Fits at h ⊢
  rw [hidx]
  omega

theorem Fits.call {r : c.Ret} (h : Fits room s) (hallowed : bounded.allowed room c)
    (hstep : MayFail s c r s') : bounded.answer room c r ∧ Fits (bounded.next room c r) s' := by
  rcases hstep with ⟨-, hstep⟩ | ⟨-, rfl, hfail⟩
  · cases c with
    | fork child =>
      rcases hstep with ⟨hpos, -, rfl⟩ | ⟨hr, rfl⟩
      · exact ⟨Or.inr hpos, h⟩
      · exact ⟨Or.inl hr, h⟩
    | bgArrayIdx =>
      obtain ⟨rfl, rfl⟩ := hstep
      exact ⟨trivial, h.asked⟩
    | incIdx =>
      obtain rfl := hstep
      exact ⟨trivial, h.registered hallowed⟩
    | sigBlock =>
      obtain ⟨-, rfl⟩ := hstep
      exact ⟨trivial, h⟩
    | sigSetmask oldset =>
      obtain ⟨-, rfl⟩ := hstep
      exact ⟨trivial, h⟩
    | waitpid pid =>
      rcases hstep with ⟨-, -, rfl⟩ | ⟨-, -, rfl⟩
      · exact ⟨trivial, h⟩
      · exact ⟨trivial, h⟩
    | _ =>
      obtain rfl := hstep
      exact ⟨trivial, h⟩
  · cases c with
    | sigBlock => exact ⟨trivial, h⟩
    | sigSetmask oldset => exact ⟨trivial, h⟩
    | _ => exact hfail.elim

variable {lexLine : Str → LexResult × List Token} {p p' : ShellM Unit}
  {es : List (Happening Call.Ret Event)} {l : Happening Call.Ret Event}

/-- All along the main thread the counter is in bounds, so are the accesses of the next step, and
    the counter is positive when the handler decrements it. -/
theorem table_bounded
    (hrun : ProgRun MayFail ShellEvent (mainLoop lexLine n, Snush.initial) es (p, s)) :
    (s.table.idx : Int) ≤ maxBgPro ∧
      (∀ l p' s', ProgStep MayFail ShellEvent (p, s) l (p', s') →
        ∀ j ∈ accesses s.table l, (j : Int) < maxBgPro) ∧
      ∀ pid found, s.table.findPid pid = some found → 0 < s.table.idx := by
  have hmain : Obeys bounded (fun _ _ => True) (mainLoop lexLine n) 0 :=
    mainLoop_apart (K := fun _ => True) bounded_apart (fun _ _ => ⟨trivial, fun _ => rfl⟩)
      (fun _ _ _ => executeExternal_bounded) trivial
  have hstart : Fits 0 Snush.initial := show ((0 : Nat) : Int) ≤ maxBgPro by decide
  obtain ⟨hfits, hobeys⟩ := Obeys.run_of_forall (I := fun _ => Fits)
    (fun _ _ _ _ _ _ h hallowed hexec => h.call hallowed hexec)
    (fun _ _ _ _ _ h hstep => h.event hstep) hmain hstart hrun
  generalize bounded.phase 0 es = room at hfits hobeys
  have hbound : ((s.table.idx + room : Nat) : Int) ≤ maxBgPro := hfits
  refine ⟨by omega, fun l p' s' hstep j hj => ?_, fun pid found h => ?_⟩
  · cases hstep with
    | @call _ _ c r k hexec =>
      have hallowed : bounded.allowed room c := hobeys.1
      cases c with
      | storePid pid =>
        obtain rfl := List.mem_singleton.mp hj
        have hpos : 0 < room := hallowed
        omega
      | storePgid pgid =>
        obtain rfl := List.mem_singleton.mp hj
        have hpos : 0 < room := hallowed
        omega
      | _ => exact absurd hj List.not_mem_nil
    | @env _ _ _ e henv =>
      cases e with
      | reap pid text =>
        have hlt := handleChildAccesses_lt hj
        omega
      | _ => exact absurd hj List.not_mem_nil
  · exact Nat.zero_lt_of_lt (Table.findPid_lt h)

/-- `a &`, before its child is stored. -/
theorem table_bounded_one : ∃ (p : ShellM Unit) (s : Snush) (es : List (Happening Call.Ret Event)),
    ProgRun MayFail ShellEvent (mainLoop (fun _ => (.success, [.word [97], .bg])) 1,
      Snush.initial) es (p, s) ∧ p.next = some (.storePid 100) ∧
    ∀ l p' s', ProgStep MayFail ShellEvent (p, s) l (p', s') →
      ∀ j ∈ accesses s.table l, (j : Int) < maxBgPro := by
  have hrun : ∃ (p : ShellM Unit) (s : Snush) (es : List (Happening Call.Ret Event)),
      ProgRun MayFail ShellEvent (mainLoop (fun _ => (.success, [.word [97], .bg])) 1,
        Snush.initial) es (p, s) ∧ p.next = some (.storePid 100) := by
    apply Exists.intro
    apply Exists.intro
    apply Exists.intro
    apply And.intro
    · apply ProgRun.called Call.checkBgStatus () rfl (Or.inl ⟨rfl, rfl⟩)
      apply ProgRun.called (Call.printf "% ") () rfl (Or.inl ⟨rfl, rfl⟩)
      apply ProgRun.called Call.fgets (some [97, 32, 38, 10]) rfl (Or.inl ⟨rfl, rfl⟩)
      apply ProgRun.called Call.bgArrayIdx (0 : Int) rfl (Or.inl ⟨rfl, rfl, rfl⟩)
      apply ProgRun.called (Call.fork ⟨true, none, true⟩) (100 : Int) rfl
        (Or.inl ⟨rfl, Or.inl ⟨by decide, rfl, rfl⟩⟩)
      apply ProgRun.called Call.sigBlock (0, false) rfl (Or.inl ⟨rfl, rfl, rfl⟩)
      exact Run.nil _
    · rfl
  obtain ⟨p, s, es, hrun, hnext⟩ := hrun
  exact ⟨p, s, es, hrun, hnext, (table_bounded hrun).2.1⟩

end SnuSysProg.Shell
