import SnuSysProg.Lib.Run
import SnuSysProg.Skvs.Parse

/-
  Workers that run `skvs_parse` at the same time.

  Each worker has a buffer of its own, but the position of `strtok` is one for all of them. A run
  starts the calls of `skvs_parse` and makes the calls of `strtok` in any order. As long as a worker
  that calls `strtok(NULL, ..)` finds the position in its own buffer, it parses its request as it
  would alone (`skvsParse_undisturbed`); else it may be given a token of another request.
-/

namespace SnuSysProg.Skvs
open SnuSysProg.Lib

variable {ι : Type} {w v : ι} {o : Nat} {p : Pos Unit} {pc : Pc Unit} {b : Buffer}
  {sv : Option (Pos Unit)} {len : Nat}

/-! ## One worker, wherever its buffer is -/

/-- A place in the buffer of the one worker, as a place in the buffer of `w`. -/
def place (w : ι) (p : Pos Unit) : Pos ι := ⟨w, p.off⟩

def Parsed.at (w : ι) (r : Parsed Unit) : Parsed ι :=
  { cmd := r.cmd, key := r.key.map (place w), value := r.value.map (place w) }

def Pc.at (w : ι) : Pc Unit → Pc ι
  | .cmd => .cmd
  | .key i => .key i
  | .value i k => .value i (place w k)
  | .extra i k v => .extra i (place w k) (v.map (place w))

def Ctl.at (w : ι) : Ctl Unit → Ctl ι
  | .call pc => .call (pc.at w)
  | .ret r => .ret (r.at w)

/-- How many calls of `strtok` are left at most. -/
def Ctl.calls : Ctl Unit → Nat
  | .call pc => pc.calls
  | .ret _ => 0

theorem Pc.at_eq_cmd : pc.at w = .cmd ↔ pc = .cmd := by
  cases pc <;> simp [Pc.at]

/-- Only the first call passes the buffer. -/
theorem Pc.arg_of_ne {pc : Pc ι} (h : pc ≠ .cmd) : pc.arg w = none := by
  cases pc with
  | cmd => exact absurd rfl h
  | _ => rfl

theorem place_injective (w : ι) : Function.Injective (place w) := by
  intro p q h
  have hoff : (place w p).off = (place w q).off := by rw [h]
  exact congrArg (Pos.mk ()) hoff

theorem skvsParseStart_at (w : ι) (b : Buffer) (len : Nat) :
    (skvsParseStart b len : Buffer × Ctl ι) =
      ((skvsParseStart b len : Buffer × Ctl Unit).1, (skvsParseStart b len).2.at w) := by
  unfold skvsParseStart
  by_cases hbig : len > bufferSize
  · rw [if_pos hbig, if_pos hbig]
    rfl
  · rw [if_neg hbig, if_neg hbig]
    by_cases hfull : len = bufferSize
    · rw [if_pos hfull, if_pos hfull]
      by_cases hend : b[bufferSize - 1]? ≠ some newline
      · rw [if_pos hend, if_pos hend]
        rfl
      · rw [if_neg hend, if_neg hend]
        rfl
    · rw [if_neg hfull, if_neg hfull]
      dsimp only
      cases (cstr (b.set len 0) 0).idxOf? newline <;> rfl

variable [DecidableEq ι] {mem : Buffers ι} {saved : Option (Pos ι)}

/-- A call of `strtok` that works in the buffer of `w` is that of a worker alone. -/
theorem strtok_at {s : Option (Pos ι)} {s' : Option (Pos Unit)}
    (hs : s.or saved = some (place w p)) (hs' : s'.or sv = some p) :
    strtok mem saved s =
      ((strtok (fun _ => mem w) sv s').1.map (place w),
        Function.update mem w ((strtok (fun _ => mem w) sv s').2.1 ()),
        (strtok (fun _ => mem w) sv s').2.2.map (place w)) := by
  unfold strtok
  rw [hs, hs']
  dsimp only [place]
  split
  · rw [Function.update_eq_self]
    rfl
  · split
    · rfl
    · rw [Function.update_eq_self]
      rfl

/-- The position stays in the buffer that `strtok` works in. -/
theorem strtok_saved {s : Option (Pos ι)} {q : Pos ι} (hs : s.or saved = some q) :
    ∃ o, (strtok mem saved s).2.2 = some ⟨q.buf, o⟩ := by
  unfold strtok
  rw [hs]
  dsimp only
  split
  · exact ⟨_, rfl⟩
  · split <;> exact ⟨_, rfl⟩

theorem resume_at (pc : Pc Unit) (token : Option (Pos Unit)) :
    resume (pc.at w) (token.map (place w)) (Function.update mem w b) =
      (Function.update mem w ((resume pc token fun _ => b).1 ()),
        (resume pc token fun _ => b).2.at w) := by
  cases pc with
  | cmd =>
    cases token with
    | none => rfl
    | some cmd =>
      simp only [Pc.at, Option.map_some, resume, place, Function.update_self,
        Function.update_idem]
      cases gCmds.find? fun g => cstr (upperAt b cmd.off) cmd.off = g.2 <;> rfl
  | key i =>
    cases token with
    | none => rfl
    | some key =>
      simp only [Pc.at, Option.map_some, resume, place, Function.update_self]
      split <;> rfl
  | value i key =>
    cases token with
    | none =>
      simp only [Pc.at, Option.map_none, resume, ne_eq, not_true, and_false, if_false, and_true]
      split <;> rfl
    | some value =>
      simp only [Pc.at, Option.map_some, resume, ne_eq, reduceCtorEq, not_false_eq_true, and_true,
        and_false, if_false]
      split <;> rfl
  | extra i key value =>
    cases token <;> rfl

theorem parseStep_at (hs : ((pc.at w).arg w).or saved = some (place w p))
    (hs' : (pc.arg ()).or sv = some p) :
    parseStep w (pc.at w) mem saved =
      (Function.update mem w ((parseStep () pc (fun _ => mem w) sv).1 ()),
        (parseStep () pc (fun _ => mem w) sv).2.1.map (place w),
        (parseStep () pc (fun _ => mem w) sv).2.2.at w) := by
  unfold parseStep
  rw [strtok_at hs hs']
  dsimp only
  rw [resume_at]

/-- Between two calls of `strtok` the parse gets one call further. -/
theorem resume_calls {pc' : Pc Unit} {token : Option (Pos Unit)} {mem : Buffers Unit}
    (h : (resume pc token mem).2 = .call pc') : pc.calls = pc'.calls + 1 := by
  cases pc with
  | cmd =>
    cases token with
    | none => exact absurd h (by simp [resume])
    | some cmd =>
      simp only [resume] at h
      split at h
      · obtain rfl := Ctl.call.inj h
        rfl
      · exact absurd h (by simp)
  | key i =>
    cases token with
    | none => exact absurd h (by simp [resume])
    | some key =>
      simp only [resume] at h
      split at h
      · exact absurd h (by simp)
      · obtain rfl := Ctl.call.inj h
        rfl
  | value i key =>
    simp only [resume] at h
    split at h
    · exact absurd h (by simp)
    · split at h
      · exact absurd h (by simp)
      · obtain rfl := Ctl.call.inj h
        rfl
  | extra i key value =>
    simp only [resume] at h
    split at h <;> exact absurd h (by simp)

/-- The rest of a parse does its first call, and goes on with what is left. -/
theorem parseFrom_step (pc : Pc Unit) (b : Buffer) (sv : Option (Pos Unit)) :
    parseFrom pc.calls (.call pc) b sv =
      parseFrom (parseStep () pc (fun _ => b) sv).2.2.calls (parseStep () pc (fun _ => b) sv).2.2
        ((parseStep () pc (fun _ => b) sv).1 ()) (parseStep () pc (fun _ => b) sv).2.1 := by
  obtain ⟨n, hn⟩ : ∃ n, pc.calls = n + 1 := by
    cases pc <;> exact ⟨_, rfl⟩
  have hnext : ∀ pc', (parseStep () pc (fun _ => b) sv).2.2 = .call pc' →
      pc.calls = pc'.calls + 1 := fun _ => resume_calls
  rw [hn, parseFrom]
  generalize parseStep () pc (fun _ => b) sv = out at hnext ⊢
  obtain ⟨mem', sv', ctl⟩ := out
  cases ctl with
  | ret r =>
    dsimp only
    rw [parseFrom_ret, parseFrom_ret]
  | call pc' =>
    have hcalls : n + 1 = pc'.calls + 1 := hn ▸ hnext pc' rfl
    rw [Nat.succ.inj hcalls]
    rfl

theorem skvsParseStart_cmd (h : (skvsParseStart b len : Buffer × Ctl Unit).2 = .call pc) :
    pc = .cmd := by
  unfold skvsParseStart at h
  split at h
  · exact absurd h (by simp)
  · split at h
    · split at h
      · exact absurd h (by simp)
      · exact (Ctl.call.inj h).symm
    · dsimp only at h
      split at h
      · exact absurd h (by simp)
      · exact (Ctl.call.inj h).symm

theorem skvsParse_saved (b : Buffer) (len : Nat) (sv sv' : Option (Pos Unit)) :
    skvsParse b len sv = skvsParse b len sv' := by
  unfold skvsParse
  dsimp only
  cases hc : (skvsParseStart b len : Buffer × Ctl Unit).2 with
  | ret r => rfl
  | call pc =>
    obtain rfl := skvsParseStart_cmd hc
    rfl

/-! ## The workers -/

structure Workers (ι : Type) where
  mem : Buffers ι
  /-- The position of `strtok`. -/
  saved : Option (Pos ι)
  /-- Where each worker is in `skvs_parse`, if it has ever called it. -/
  ctl : ι → Option (Ctl ι)
  /-- The buffer and the length each worker last called `skvs_parse` with. -/
  request : ι → Buffer × Nat

namespace Workers

inductive Event (ι : Type) where
  | parse (w : ι) (b : Buffer) (len : Nat)
  | strtok (w : ι)
  deriving DecidableEq

def Event.worker : Event ι → ι
  | .parse w _ _ => w
  | .strtok w => w

/-- A worker that is in no call of `skvs_parse` has a request in its buffer and calls it. -/
def parse (s : Workers ι) (w : ι) (b : Buffer) (len : Nat) : Workers ι :=
  { s with
    mem := Function.update s.mem w (skvsParseStart b len : Buffer × Ctl ι).1
    ctl := Function.update s.ctl w (some (skvsParseStart b len).2)
    request := Function.update s.request w (b, len) }

/-- A worker calls `strtok` and runs to its next call. -/
def call (s : Workers ι) (w : ι) (pc : Pc ι) : Workers ι :=
  { s with
    mem := (parseStep w pc s.mem s.saved).1
    saved := (parseStep w pc s.mem s.saved).2.1
    ctl := Function.update s.ctl w (some (parseStep w pc s.mem s.saved).2.2) }

inductive Step (s : Workers ι) : Event ι → Workers ι → Prop
  | parse {w : ι} {b : Buffer} {len : Nat} (hidle : ∀ pc, s.ctl w ≠ some (.call pc)) :
      Step s (.parse w b len) (s.parse w b len)
  | strtok {w : ι} {pc : Pc ι} (hcall : s.ctl w = some (.call pc)) :
      Step s (.strtok w) (s.call w pc)

/-- A worker that calls `strtok(NULL, ..)` finds the position in its own buffer. -/
def OwnPosition (s : Workers ι) (e : Event ι) : Prop :=
  match e with
  | .parse _ _ _ => True
  | .strtok w => ∀ pc, s.ctl w = some (.call pc) → pc ≠ .cmd → ∃ o, s.saved = some ⟨w, o⟩

/-- Before any worker has called anything. -/
structure Fresh (s : Workers ι) : Prop where
  ctl : ∀ w, s.ctl w = none

/-- What a worker's call of `skvs_parse` has returned, and the buffer it left, are those of the
    call alone; so the key and the value are in its own buffer. -/
def Undisturbed (s : Workers ι) : Prop :=
  ∀ w r, s.ctl w = some (.ret r) → ∀ sv,
    r = (skvsParse (s.request w).1 (s.request w).2 sv).2.at w ∧
      s.mem w = (skvsParse (s.request w).1 (s.request w).2 sv).1

variable {s s' s₀ : Workers ι} {e : Event ι} {es : List (Event ι)}

/-- What is left of the worker's parse, if the position is still the one it left, comes to what
    its whole parse comes to alone. -/
def OnTrack (s : Workers ι) (w : ι) : Prop :=
  ∀ ctl, s.ctl w = some ctl → ∃ c : Ctl Unit, ctl = c.at w ∧
    ∀ sv, (∀ pc, c = .call pc → pc ≠ .cmd → s.saved = sv.map (place w)) →
      parseFrom c.calls c (s.mem w) sv = skvsParse (s.request w).1 (s.request w).2 none

omit [DecidableEq ι] in
theorem OnTrack.undisturbed (h : ∀ w, s.OnTrack w) : s.Undisturbed := by
  intro w r hr sv
  obtain ⟨c, hc, hfrom⟩ := h w _ hr
  cases c with
  | call pc => exact absurd hc (by simp [Ctl.at])
  | ret r' =>
    have hsolo := hfrom none fun pc hpc => absurd hpc (by simp)
    rw [parseFrom_ret] at hsolo
    rw [skvsParse_saved _ _ sv none, ← hsolo]
    exact ⟨Ctl.ret.inj hc, rfl⟩

omit [DecidableEq ι] in
/-- A worker whose buffer and call are as before is on track, if the position has not come into
    its buffer. -/
theorem OnTrack.frame (h : s.OnTrack w) (hctl : s'.ctl w = s.ctl w) (hmem : s'.mem w = s.mem w)
    (hrequest : s'.request w = s.request w)
    (hsaved : s'.saved = s.saved ∨ ∃ v o, v ≠ w ∧ s'.saved = some ⟨v, o⟩) : s'.OnTrack w := by
  intro ctl hctl'
  obtain ⟨c, hc, hfrom⟩ := h ctl (by rw [← hctl, hctl'])
  refine ⟨c, hc, fun sv hsv => ?_⟩
  rw [hmem, hrequest]
  refine hfrom sv fun pc hpc hne => ?_
  have hplace := hsv pc hpc hne
  rcases hsaved with hsame | ⟨v, o, hv, hother⟩
  · rw [← hsame, hplace]
  · rw [hother] at hplace
    cases sv with
    | none => exact absurd hplace (by simp)
    | some q =>
      rw [Option.map_some] at hplace
      have hbuf : v = w := congrArg Pos.buf (Option.some.inj hplace)
      exact absurd hbuf hv

theorem onTrack_parse (h : ∀ v, s.OnTrack v) (w : ι) (b : Buffer) (len : Nat) (v : ι) :
    (s.parse w b len).OnTrack v := by
  by_cases hv : v = w
  · subst hv
    intro ctl hctl
    have hstart := skvsParseStart_at v b len
    refine ⟨(skvsParseStart b len).2, ?_, fun sv _ => ?_⟩
    · have hself : (s.parse v b len).ctl v = some (skvsParseStart b len).2 :=
        Function.update_self ..
      rw [hself, hstart] at hctl
      exact (Option.some.inj hctl).symm
    · have hmem : (s.parse v b len).mem v = (skvsParseStart b len : Buffer × Ctl ι).1 :=
        Function.update_self ..
      have hrequest : (s.parse v b len).request v = (b, len) := Function.update_self ..
      rw [hmem, hrequest, hstart]
      unfold skvsParse
      dsimp only
      cases hc : (skvsParseStart b len : Buffer × Ctl Unit).2 with
      | ret r => rw [parseFrom_ret, parseFrom_ret]
      | call pc =>
        obtain rfl := skvsParseStart_cmd hc
        rfl
  · exact (h v).frame (Function.update_of_ne hv _ _) (Function.update_of_ne hv _ _)
      (Function.update_of_ne hv _ _) (Or.inl rfl)

/-- The call of a worker that finds its own position is its next call alone. -/
theorem OnTrack.call_at {pc : Pc ι} (h : s.OnTrack w) (hcall : s.ctl w = some (.call pc))
    (hown : pc ≠ .cmd → ∃ o, s.saved = some ⟨w, o⟩) : ∃ pcu sv, pc = pcu.at w ∧
      parseFrom pcu.calls (.call pcu) (s.mem w) sv =
        skvsParse (s.request w).1 (s.request w).2 none ∧
      parseStep w pc s.mem s.saved =
        (Function.update s.mem w ((parseStep () pcu (fun _ => s.mem w) sv).1 ()),
          (parseStep () pcu (fun _ => s.mem w) sv).2.1.map (place w),
          (parseStep () pcu (fun _ => s.mem w) sv).2.2.at w) ∧
      ∃ o, (parseStep w pc s.mem s.saved).2.1 = some ⟨w, o⟩ := by
  obtain ⟨c, hc, hfrom⟩ := h _ hcall
  cases c with
  | ret r => exact absurd hc (by simp [Ctl.at])
  | call pcu =>
    obtain rfl : pc = pcu.at w := Ctl.call.inj hc
    by_cases hcmd : pcu = .cmd
    · subst hcmd
      have hs : ((Pc.cmd.at w).arg w).or s.saved = some (place w ⟨(), 0⟩) := rfl
      refine ⟨.cmd, none, rfl, hfrom none fun pc hpc hne => ?_, parseStep_at hs rfl, ?_⟩
      · exact absurd (Ctl.call.inj hpc).symm hne
      · exact strtok_saved hs
    · obtain ⟨o, ho⟩ := hown (mt Pc.at_eq_cmd.mp hcmd)
      have hs : ((pcu.at w).arg w).or s.saved = some (place w ⟨(), o⟩) := by
        rw [Pc.arg_of_ne (mt Pc.at_eq_cmd.mp hcmd), Option.none_or]
        exact ho
      have hs' : (pcu.arg ()).or (some ⟨(), o⟩) = some ⟨(), o⟩ := by
        rw [Pc.arg_of_ne hcmd, Option.none_or]
      exact ⟨pcu, some ⟨(), o⟩, rfl, hfrom _ fun _ _ _ => ho, parseStep_at hs hs',
        strtok_saved hs⟩

theorem onTrack_call {pc : Pc ι} (h : ∀ v, s.OnTrack v) (hcall : s.ctl w = some (.call pc))
    (hown : pc ≠ .cmd → ∃ o, s.saved = some ⟨w, o⟩) (v : ι) : (s.call w pc).OnTrack v := by
  obtain ⟨pcu, sv, -, hsolo, hstep, o, ho⟩ := (h w).call_at hcall hown
  by_cases hv : v = w
  · subst hv
    have hctl : (s.call v pc).ctl v = some ((parseStep () pcu (fun _ => s.mem v) sv).2.2.at v) := by
      change Function.update s.ctl v (some (parseStep v pc s.mem s.saved).2.2) v = _
      rw [Function.update_self, hstep]
    have hmem : (s.call v pc).mem v = (parseStep () pcu (fun _ => s.mem v) sv).1 () := by
      change (parseStep v pc s.mem s.saved).1 v = _
      rw [hstep]
      exact Function.update_self ..
    have hsaved : (s.call v pc).saved =
        (parseStep () pcu (fun _ => s.mem v) sv).2.1.map (place v) := by
      change (parseStep v pc s.mem s.saved).2.1 = _
      rw [hstep]
    rw [parseFrom_step] at hsolo
    intro ctl hctl'
    rw [hctl] at hctl'
    refine ⟨_, (Option.some.inj hctl').symm, fun sv' hsv' => ?_⟩
    rw [hmem]
    refine Eq.trans ?_ hsolo
    cases hc' : (parseStep () pcu (fun _ => s.mem v) sv).2.2 with
    | ret r => rw [parseFrom_ret, parseFrom_ret]
    | call pc' =>
      by_cases hcmd : pc' = .cmd
      · subst hcmd
        rfl
      · have heq := hsv' pc' hc' hcmd
        rw [hsaved] at heq
        rw [Option.map_injective (place_injective v) heq]
  · refine (h v).frame (Function.update_of_ne hv _ _) ?_ rfl (Or.inr ⟨w, o, Ne.symm hv, ho⟩)
    change (parseStep w pc s.mem s.saved).1 v = s.mem v
    rw [hstep]
    exact Function.update_of_ne hv _ _

theorem onTrack_step (h : ∀ v, s.OnTrack v) (hown : s.OwnPosition e) (hstep : Step s e s') (v : ι) :
    s'.OnTrack v := by
  cases hstep with
  | parse => exact onTrack_parse h _ _ _ v
  | strtok hcall => exact onTrack_call h hcall (hown _ hcall) v

/-- A step of a worker on track writes into its own buffer only. -/
theorem mem_step (h : ∀ v, s.OnTrack v) (hown : s.OwnPosition e) (hstep : Step s e s')
    (hv : v ≠ e.worker) : s'.mem v = s.mem v := by
  cases hstep with
  | parse => exact Function.update_of_ne hv _ _
  | @strtok w pc hcall =>
    obtain ⟨pcu, sv, -, -, hat, -⟩ := (h w).call_at hcall (hown _ hcall)
    change (parseStep w pc s.mem s.saved).1 v = s.mem v
    rw [hat]
    exact Function.update_of_ne hv _ _

/-- **Parses do not disturb each other while the position stays put.** In a run in which every
    `strtok(NULL, ..)` finds the position in the caller's buffer, each `skvs_parse` returns what it
    returns alone, in its own buffer, and no step writes into another worker's buffer. -/
theorem skvsParse_undisturbed (hfresh : s₀.Fresh) (hrun : Run (Guarded OwnPosition Step) s₀ es s) :
    s.Undisturbed ∧
      ∀ e s', s.OwnPosition e → Step s e s' → ∀ v, v ≠ e.worker → s'.mem v = s.mem v := by
  have hstart : ∀ w, s₀.OnTrack w := by
    intro w ctl hctl
    rw [hfresh.ctl w] at hctl
    exact absurd hctl (by simp)
  have hall : ∀ w, s.OnTrack w :=
    Run.preserves_of_steps (P := fun s => ∀ w, s.OnTrack w)
      (fun _ _ _ hs hown hstep => onTrack_step hs hown hstep) hrun hstart
  exact ⟨OnTrack.undisturbed hall, fun e s' hown hstep v hv => mem_step hall hown hstep hv⟩

/-- No worker has had a request yet. -/
def idle : Workers ι :=
  { mem := fun _ => []
    saved := none
    ctl := fun _ => none
    request := fun _ => ([], 0) }

omit [DecidableEq ι] in
theorem idle_fresh : (idle : Workers ι).Fresh := ⟨fun _ => rfl⟩

/-- Two workers with a request each, before the first call of `strtok`. -/
def twoRequests : Workers Bool := (idle.parse false (readLine 97) 7).parse true (readLine 98) 7

theorem run_twoRequests : Run (Guarded OwnPosition Step) (idle : Workers Bool)
    [.parse false (readLine 97) 7, .parse true (readLine 98) 7] twoRequests :=
  Run.snoc (Run.single ⟨trivial, .parse nofun⟩) ⟨trivial, .parse nofun⟩

theorem step_call (w : ι) (pc : Pc ι) (h : s.ctl w = some (.call pc)) :
    Step s (.strtok w) (s.call w pc) := .strtok h

/-- The first worker gets through its request before the second one goes on. -/
theorem skvsParse_undisturbed_first : ∃ es : List (Event Bool), ∃ s,
    Run (Guarded OwnPosition Step) idle es s ∧ s.Undisturbed ∧
      s.ctl false = some (.ret { cmd := .read, key := some ⟨false, 5⟩ }) := by
  have hown : ∀ (s : Workers Bool) w, (∃ o, s.saved = some ⟨w, o⟩) → s.OwnPosition (.strtok w) :=
    fun _ _ ho _ _ _ => ho
  have hfirst : twoRequests.OwnPosition (.strtok false) := by
    intro pc hpc hne
    obtain rfl : Pc.cmd = pc := Ctl.call.inj (Option.some.inj hpc)
    exact absurd rfl hne
  have h1 := run_twoRequests.snoc ⟨hfirst, step_call false .cmd rfl⟩
  have h2 := h1.snoc ⟨hown _ _ ⟨_, rfl⟩, step_call false (.key .read) rfl⟩
  have h3 := h2.snoc ⟨hown _ _ ⟨_, rfl⟩, step_call false (.value .read ⟨false, 5⟩) rfl⟩
  have h4 := h3.snoc ⟨hown _ _ ⟨_, rfl⟩, step_call false (.extra .read ⟨false, 5⟩ none) rfl⟩
  exact ⟨_, _, h4, (skvsParse_undisturbed idle_fresh h4).1, rfl⟩

/-- The first worker is given the key of the second one's request. -/
theorem skvsParse_disturbed : ¬ ∀ (es : List (Event Bool)) s, Run Step idle es s →
    s.Undisturbed ∧ ∀ e s', Step s e s' → ∀ v, v ≠ e.worker → s'.mem v = s.mem v := by
  intro hclaim
  have h1 := run_twoRequests.of_guarded.snoc (step_call false .cmd rfl)
  have h2 := h1.snoc (step_call true .cmd rfl)
  have h3 := h2.snoc (step_call false (.key .read) rfl)
  have h4 := h3.snoc (step_call false (.value .read ⟨true, 5⟩) rfl)
  have h5 := h4.snoc (step_call false (.extra .read ⟨true, 5⟩ none) rfl)
  have hreturn := ((hclaim _ _ h5).1 false { cmd := .read, key := some ⟨true, 5⟩ } rfl none).1
  exact absurd hreturn (by decide)

end Workers

end SnuSysProg.Skvs
