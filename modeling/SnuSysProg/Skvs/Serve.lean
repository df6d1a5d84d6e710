import SnuSysProg.Skvs.Refinement
import SnuSysProg.Skvs.Words

/-
  `skvs_serve`: a request is parsed, carried out on the table, and answered.

  `skvsServe_spec`: a request is incomplete, or invalid, or makes an operation of `hashtable.c`
  whose outcome is put into words. The library calls may turn out in any way, the lock calls too.
-/

namespace SnuSysProg.Skvs
open SnuSysProg.Lib

/-- The response messages. -/
inductive Msg where
  | invalid
  | createOk
  | collision
  | notFound
  | updateOk
  | deleteOk
  | internalErr
  deriving DecidableEq

/-- `g_msgs`. -/
def gMsgs : Msg → Str
  | .invalid => ascii ['I', 'N', 'V', 'A', 'L', 'I', 'D', ' ', 'C', 'M', 'D']
  | .createOk => ascii ['C', 'R', 'E', 'A', 'T', 'E', ' ', 'O', 'K']
  | .collision => ascii ['C', 'O', 'L', 'L', 'I', 'S', 'I', 'O', 'N']
  | .notFound => ascii ['N', 'O', 'T', ' ', 'F', 'O', 'U', 'N', 'D']
  | .updateOk => ascii ['U', 'P', 'D', 'A', 'T', 'E', ' ', 'O', 'K']
  | .deleteOk => ascii ['D', 'E', 'L', 'E', 'T', 'E', ' ', 'O', 'K']
  | .internalErr => ascii ['I', 'N', 'T', 'E', 'R', 'N', 'A', 'L', ' ', 'E', 'R', 'R']

/-- What `skvs_serve` returns: `NULL`, a message, or a pointer to a value in the table. -/
inductive Response where
  | null
  | msg (m : Msg)
  | value (a : Addr)
  deriving DecidableEq

/-- The string returned, as it is in the table now. -/
def Response.text (resp : Response) (t : Table) : Option Str :=
  match resp with
  | .null => none
  | .msg m => some (gMsgs m)
  | .value a =>
    match t.heap.lookup a with
    | some (.str s) => some s
    | _ => none

/-- The string that `key` or `value` points to. -/
def textAt (b : Buffer) (p : Option (Pos Unit)) : TableM Str :=
  match p with
  | some p => return cstr b p.off
  | none => throw .dangling

/-- `skvs_serve`: the buffer it leaves, and what it returns. -/
def skvsServe (calls : Calls) (rbuf : Buffer) (rlen : Nat) (saved : Option (Pos Unit)) :
    TableM (Buffer × Response) := do
  let (rbuf, r) := skvsParse rbuf rlen saved
  match r.cmd with
  | .incomplete => return (rbuf, .null)
  | .create =>
    let ret ← hashInsert calls (← textAt rbuf r.key) (← textAt rbuf r.value)
    if ret.code > 0 then return (rbuf, .msg .createOk)
    else if ret.code = 0 then return (rbuf, .msg .collision)
    else return (rbuf, .msg .internalErr)
  | .read =>
    let ret ← hashSearch calls (← textAt rbuf r.key)
    if ret.code > 0 then return (rbuf, ret.found.elim .null .value)
    else if ret.code = 0 then return (rbuf, .msg .notFound)
    else return (rbuf, .msg .internalErr)
  | .update =>
    let ret ← hashUpdate calls (← textAt rbuf r.key) (← textAt rbuf r.value)
    if ret.code > 0 then return (rbuf, .msg .updateOk)
    else if ret.code = 0 then return (rbuf, .msg .notFound)
    else return (rbuf, .msg .internalErr)
  | .delete =>
    let ret ← hashDelete calls (← textAt rbuf r.key)
    if ret.code > 0 then return (rbuf, .msg .deleteOk)
    else if ret.code = 0 then return (rbuf, .msg .notFound)
    else return (rbuf, .msg .internalErr)
  | .invalid => return (rbuf, .msg .invalid)

variable {t t' : Table} {B : Nat → List Entry} {m : Map} {op : Op} {calls : Calls}
  {rbuf : Buffer} {rlen : Nat} {saved : Option (Pos Unit)} {q : Request} {ws : List Str}

/-! ## An operation, whatever its lock calls return -/

inductive Called (op : Op) (calls : Calls) (t : Table) (B : Nat → List Entry) (m : Map) :
    Outcome → Table → Prop
  | unlocked {r : Outcome} {t' : Table} (h : Section op calls t B m r t') :
      Called op calls t B m r t'
  | lockFailed (hlock : calls.lock = -1) : Called op calls t B m { code := -1 } t
  | unlockFailed {r : Outcome} {t' : Table} (h : Section op calls t B m r t')
      (hunlock : calls.unlock = -1) : Called op calls t B m { code := -1 } t'

theorem locked_spec (hr : Represents t B) (hm : Holds t B m) :
    Returns (op.call calls) t (Called op calls t B m) := by
  rw [call_eq_locked]
  unfold locked
  refine Returns.step (get_apply t) ?_
  dsimp only
  by_cases hlock : calls.lock = -1
  · rw [if_pos hlock]
    exact Returns.pure (.lockFailed hlock)
  · rw [if_neg hlock]
    refine Returns.bind (section_spec hr hm rfl) fun r t' ht' => ?_
    by_cases hunlock : calls.unlock = -1
    · rw [if_pos hunlock]
      exact Returns.pure (.unlockFailed ht' hunlock)
    · rw [if_neg hunlock]
      exact Returns.pure (.unlocked ht')

/-! ## Requests and operations -/

def Op.cmd : Op → Cmd
  | .insert _ _ => .create
  | .search _ => .read
  | .update _ _ => .update
  | .delete _ => .delete

def Op.value? : Op → Option Str
  | .insert _ v => some v
  | .update _ v => some v
  | _ => none

theorem op_of_request {op' : Op}
    (h : (⟨op.cmd, op.key, op.value?⟩ : Request) = ⟨op'.cmd, op'.key, op'.value?⟩) : op = op' := by
  cases op <;> cases op' <;> simp_all [Op.cmd, Op.key, Op.value?]

/-- The response for an outcome of the operation. -/
def Op.reply (op : Op) (r : Outcome) : Response :=
  if r.code > 0 then
    match op with
    | .insert _ _ => .msg .createOk
    | .search _ => r.found.elim .null .value
    | .update _ _ => .msg .updateOk
    | .delete _ => .msg .deleteOk
  else if r.code = 0 then
    match op with
    | .insert _ _ => .msg .collision
    | _ => .msg .notFound
  else .msg .internalErr

theorem withArgs_op {i : Cmd} {key : Str} {args : List Str} (hi : i ≠ .incomplete ∧ i ≠ .invalid)
    (h : withArgs i key args = .ok q) : ∃ op : Op, q = ⟨op.cmd, op.key, op.value?⟩ := by
  obtain ⟨hincomplete, hinvalid⟩ := hi
  unfold withArgs at h
  split at h
  · split at h
    · exact absurd h (by simp)
    · rename_i hnot
      obtain rfl := Except.ok.inj h
      cases i with
      | read => exact ⟨.search key, rfl⟩
      | delete => exact ⟨.delete key, rfl⟩
      | create => exact absurd (Or.inl rfl) hnot
      | update => exact absurd (Or.inr rfl) hnot
      | incomplete => exact absurd rfl hincomplete
      | invalid => exact absurd rfl hinvalid
  · rename_i value
    split at h
    · exact absurd h (by simp)
    · rename_i hnot
      obtain rfl := Except.ok.inj h
      cases i with
      | read => exact absurd (Or.inl rfl) hnot
      | delete => exact absurd (Or.inr rfl) hnot
      | create => exact ⟨.insert key value, rfl⟩
      | update => exact ⟨.update key value, rfl⟩
      | incomplete => exact absurd rfl hincomplete
      | invalid => exact absurd rfl hinvalid
  · exact absurd h (by simp)

/-- A request is one of an operation. -/
theorem requestOf_op (h : requestOf ws = .ok q) : ∃ op : Op, q = ⟨op.cmd, op.key, op.value?⟩ := by
  cases ws with
  | nil => exact absurd h (by simp [requestOf])
  | cons cmd args =>
    rw [requestOf] at h
    split at h
    · exact absurd h (by simp)
    · rename_i i s hfind
      have hi : i ≠ .incomplete ∧ i ≠ .invalid := by
        have hmem := List.mem_of_find?_eq_some hfind
        simp only [gCmds, List.mem_cons, Prod.mk.injEq, List.not_mem_nil, or_false] at hmem
        rcases hmem with ⟨rfl, -⟩ | ⟨rfl, -⟩ | ⟨rfl, -⟩ | ⟨rfl, -⟩ <;> exact ⟨by simp, by simp⟩
      cases args with
      | nil => exact absurd h (by simp [withKey])
      | cons key args =>
        rw [withKey] at h
        split at h
        · exact absurd h (by simp)
        · exact withArgs_op hi h

/-! ## skvs_serve -/

theorem withArgs_error {i c : Cmd} {key : Str} {args : List Str}
    (h : withArgs i key args = .error c) : c = .invalid := by
  unfold withArgs at h
  split at h
  · split at h
    · exact (Except.error.inj h).symm
    · exact absurd h (by simp)
  · split at h
    · exact (Except.error.inj h).symm
    · exact absurd h (by simp)
  · exact (Except.error.inj h).symm

theorem requestOf_error {c : Cmd} (h : requestOf ws = .error c) : c = .invalid := by
  unfold requestOf at h
  split at h
  · exact (Except.error.inj h).symm
  · split at h
    · exact (Except.error.inj h).symm
    · unfold withKey at h
      split at h
      · exact (Except.error.inj h).symm
      · split at h
        · exact (Except.error.inj h).symm
        · exact withArgs_error h

theorem requestIn_error {c : Cmd} (h : requestIn rbuf rlen = .error c) :
    c = .incomplete ∨ c = .invalid := by
  unfold requestIn at h
  split at h
  · exact Or.inr (requestOf_error h)
  · rename_i c' hline
    obtain rfl := Except.error.inj h
    unfold lineIn at hline
    split at hline
    · exact Or.inr (Except.error.inj hline).symm
    · split at hline
      · split at hline
        · exact Or.inr (Except.error.inj hline).symm
        · exact absurd hline (by simp)
      · split at hline
        · exact absurd hline (by simp)
        · exact Or.inl (Except.error.inj hline).symm

/-- Bytes that are not the beginning of a request only: as many as fit, or with a newline before the
    first NUL. -/
def Complete (bytes : Str) : Prop :=
  bufferSize ≤ bytes.length ∨ newline ∈ bytes.takeWhile (· ≠ 0)

/-- With a NUL behind them, the bytes end at their first NUL. -/
theorem cstr_set (b : Buffer) (len : Nat) :
    cstr (b.set len 0) 0 = (b.take len).takeWhile (· ≠ 0) := by
  change (b.set len 0).takeWhile (· ≠ 0) = _
  by_cases hlen : len < b.length
  · have hset : b.set len 0 = b.take len ++ 0 :: b.drop (len + 1) := by
      rw [List.set_eq_take_append_cons_drop, if_pos hlen]
    have hstop : (0 :: b.drop (len + 1)).takeWhile (· ≠ (0 : UInt8)) = [] :=
      List.takeWhile_cons_of_neg (by decide)
    rw [hset, List.takeWhile_append]
    split
    · rename_i hall
      rw [hstop, List.append_nil]
      exact ((List.takeWhile_prefix _).eq_of_length hall).symm
    · rfl
  · rw [List.set_eq_of_length_le (Nat.le_of_not_lt hlen),
      List.take_of_length_le (Nat.le_of_not_lt hlen)]

/-- The bytes in the buffer are an incomplete request. -/
theorem requestIn_incomplete (hlen : rlen ≤ rbuf.length) :
    requestIn rbuf rlen = .error .incomplete ↔ ¬ Complete (rbuf.take rlen) := by
  have hline : requestIn rbuf rlen = .error .incomplete ↔
      lineIn rbuf rlen = .error .incomplete := by
    unfold requestIn
    constructor
    · intro h
      split at h
      · exact absurd (requestOf_error h) (by simp)
      · rename_i hline
        rw [hline, Except.error.inj h]
    · intro h
      rw [h]
  rw [hline, Complete, not_or, List.length_take_of_le hlen, ← cstr_set, lineIn]
  constructor
  · intro h
    by_cases hlong : rlen > bufferSize
    · rw [if_pos hlong] at h
      exact absurd h (by simp)
    rw [if_neg hlong] at h
    by_cases hfull : rlen = bufferSize
    · rw [if_pos hfull] at h
      split at h <;> exact absurd h (by simp)
    rw [if_neg hfull] at h
    refine ⟨by omega, fun hin => ?_⟩
    rw [if_pos hin] at h
    exact absurd h (by simp)
  · rintro ⟨hshort, hnone⟩
    rw [if_neg (by omega), if_neg (by omega), if_neg hnone]

/-- What a call of `skvs_serve` may do. -/
inductive Served (calls : Calls) (rbuf : Buffer) (rlen : Nat) (t : Table) (B : Nat → List Entry)
    (m : Map) : Buffer × Response → Table → Prop
  | incomplete (b : Buffer) (hnone : requestIn rbuf rlen = .error .incomplete) :
      Served calls rbuf rlen t B m (b, .null) t
  | invalid (b : Buffer) (hnone : requestIn rbuf rlen = .error .invalid) :
      Served calls rbuf rlen t B m (b, .msg .invalid) t
  | request {op : Op} {b : Buffer} {r : Outcome} {t' : Table}
      (hrequest : requestIn rbuf rlen = .ok ⟨op.cmd, op.key, op.value?⟩)
      (hcalled : Called op calls t B m r t') : Served calls rbuf rlen t B m (b, op.reply r) t'

theorem textAt_ok {b : Buffer} {p : Option (Pos Unit)} {s : Str}
    (h : p.map (fun p => cstr b p.off) = some s) : textAt b p t = .ok (s, t) := by
  cases p with
  | none => exact absurd h (by simp)
  | some p =>
    obtain rfl := Option.some.inj h
    rfl

/-- The three ways an operation is answered. -/
theorem returns_reply {Q : Buffer × Response → Table → Prop} {b : Buffer} {r : Outcome}
    {done refused failed : Response}
    (h : Q (b, if r.code > 0 then done else if r.code = 0 then refused else failed) t) :
    Returns (if r.code > 0 then pure (b, done)
      else if r.code = 0 then pure (b, refused) else pure (b, failed) : TableM _) t Q := by
  split
  · rename_i hpos
    rw [if_pos hpos] at h
    exact Returns.pure h
  · rename_i hpos
    rw [if_neg hpos] at h
    split
    · rename_i hzero
      rw [if_pos hzero] at h
      exact Returns.pure h
    · rename_i hzero
      rw [if_neg hzero] at h
      exact Returns.pure h

theorem skvsServe_spec (hr : Represents t B) (hm : Holds t B m) :
    Returns (skvsServe calls rbuf rlen saved) t (Served calls rbuf rlen t B m) := by
  have his := skvsParse_is rbuf rlen saved
  unfold skvsServe
  generalize skvsParse rbuf rlen saved = parsed at his ⊢
  obtain ⟨b, r⟩ := parsed
  dsimp only at his ⊢
  cases hrequest : requestIn rbuf rlen with
  | error c =>
    rw [hrequest] at his
    rw [show r.cmd = c from his]
    rcases requestIn_error hrequest with rfl | rfl
    · exact Returns.pure (.incomplete b hrequest)
    · exact Returns.pure (.invalid b hrequest)
  | ok q =>
    obtain ⟨line, -, hline⟩ := requestIn_ok hrequest
    obtain ⟨op, rfl⟩ := requestOf_op hline
    rw [hrequest] at his
    obtain ⟨hcmd, hkey, hvalue⟩ := his
    have hcall : Returns (op.call calls) t (Called op calls t B m) := locked_spec hr hm
    have hserved : ∀ r t', Called op calls t B m r t' →
        Served calls rbuf rlen t B m (b, op.reply r) t' :=
      fun _ _ hcalled => .request hrequest hcalled
    rw [hcmd]
    dsimp only at hkey hvalue
    cases op with
    | insert key value =>
      refine Returns.step (textAt_ok hkey) (Returns.step (textAt_ok hvalue) ?_)
      exact Returns.bind hcall fun r t' hcalled => returns_reply (hserved r t' hcalled)
    | search key =>
      refine Returns.step (textAt_ok hkey) ?_
      exact Returns.bind hcall fun r t' hcalled => returns_reply (hserved r t' hcalled)
    | update key value =>
      refine Returns.step (textAt_ok hkey) (Returns.step (textAt_ok hvalue) ?_)
      exact Returns.bind hcall fun r t' hcalled => returns_reply (hserved r t' hcalled)
    | delete key =>
      refine Returns.step (textAt_ok hkey) ?_
      exact Returns.bind hcall fun r t' hcalled => returns_reply (hserved r t' hcalled)

end SnuSysProg.Skvs
