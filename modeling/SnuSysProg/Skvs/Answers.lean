import SnuSysProg.Lib.Run
import SnuSysProg.Skvs.Grammar
import SnuSysProg.Skvs.Replies

/-
  What the key-value service says.

  `Answer` puts `skvs_serve` on a map: a request is incomplete, or invalid, or carried out and
  answered from the map, or refused with an internal error when a lock call or an allocation failed
  (`answer_of_served`). `Service` is a client with lines to say and the map that answers them, while
  other requests come in between; `answers` is what it hears when it is alone and nothing fails.
-/

namespace SnuSysProg.Skvs
open SnuSysProg.Lib

variable {t t' : Table} {B : Nat → List Entry} {m m' : Map} {op : Op} {calls : Calls}
  {rbuf : Buffer} {rlen : Nat} {out : Buffer × Response} {r : Outcome} {reply : Str}
  {request : Except Cmd Request} {lines : List Str}

/-- The response to an operation on a map. -/
def Op.response (m : Map) : Op → Str
  | .insert key _ => if key ∈ m then gMsgs .collision else gMsgs .createOk
  | .search key => (m.lookup key).getD (gMsgs .notFound)
  | .update key _ => if key ∈ m then gMsgs .updateOk else gMsgs .notFound
  | .delete key => if key ∈ m then gMsgs .deleteOk else gMsgs .notFound

/-- A lock call or an allocation fails. -/
def Calls.Fail (calls : Calls) : Prop := calls.lock = -1 ∨ calls.unlock = -1 ∨ calls.MayFail

/-- A request is answered on a map, and leaves a map. -/
inductive Answer (calls : Calls) (request : Except Cmd Request) (m : Map) : Option Str → Map → Prop
  | incomplete (h : request = .error .incomplete) : Answer calls request m none m
  | invalid (h : request = .error .invalid) : Answer calls request m (some (gMsgs .invalid)) m
  | did {op : Op} (h : request = .ok ⟨op.cmd, op.key, op.value?⟩) :
      Answer calls request m (some (op.response m)) (op.apply m).2.2
  /-- The work may be done all the same, when it is the unlocking that fails. -/
  | failed {op : Op} {m' : Map} (h : request = .ok ⟨op.cmd, op.key, op.value?⟩)
      (hfail : calls.Fail) (hmap : m' = m ∨ m' = (op.apply m).2.2) :
      Answer calls request m (some (gMsgs .internalErr)) m'

/-! ## skvs_serve answers -/

theorem response_of_did {B' : Nat → List Entry} (h : Did op m r t' B') :
    (op.reply r).text t' = some (op.response m) := by
  cases op with
  | insert key value =>
    by_cases hin : key ∈ m
    · have hcode : r.code = 0 := h.code.trans (by simp [Op.apply, hin])
      simp [Op.reply, Op.response, Response.text, hcode, hin]
    · have hcode : r.code = 1 := h.code.trans (by simp [Op.apply, hin])
      simp [Op.reply, Op.response, Response.text, hcode, hin]
  | search key =>
    cases hfind : m.lookup key with
    | none =>
      have hcode : r.code = 0 := h.code.trans (by rw [search_absent hfind])
      simp [Op.reply, Op.response, Response.text, hcode, hfind]
    | some v =>
      have hcode : r.code = 1 := h.code.trans (by rw [search_present hfind])
      have hresponse : (Op.search key).response m = v := by simp [Op.response, hfind]
      rw [hresponse]
      exact reply_found (by rw [hcode]; decide) (h.text.trans (by rw [search_present hfind]))
  | update key value =>
    by_cases hin : key ∈ m
    · have hcode : r.code = 1 := h.code.trans (by simp [Op.apply, hin])
      simp [Op.reply, Op.response, Response.text, hcode, hin]
    · have hcode : r.code = 0 := h.code.trans (by simp [Op.apply, hin])
      simp [Op.reply, Op.response, Response.text, hcode, hin]
  | delete key =>
    by_cases hin : key ∈ m
    · have hcode : r.code = 1 := h.code.trans (by simp [Op.apply, hin])
      simp [Op.reply, Op.response, Response.text, hcode, hin]
    · have hcode : r.code = 0 := h.code.trans (by simp [Op.apply, hin])
      simp [Op.reply, Op.response, Response.text, hcode, hin]

theorem reply_failed : (op.reply { code := -1 }).text t = some (gMsgs .internalErr) := by
  unfold Op.reply
  rw [if_neg (by decide), if_neg (by decide)]
  rfl

/-- A call of `skvs_serve` on a table that holds a map is answered from the map. -/
theorem answer_of_served (hr : Represents t B) (hm : Holds t B m)
    (h : Served calls rbuf rlen t B m out t') :
    ∃ B' m', Represents t' B' ∧ Holds t' B' m' ∧
      Answer calls (requestIn rbuf rlen) m (out.2.text t') m' := by
  cases h with
  | incomplete b hnone => exact ⟨B, m, hr, hm, .incomplete hnone⟩
  | invalid b hnone => exact ⟨B, m, hr, hm, .invalid hnone⟩
  | @request op b r t' hrequest hcalled =>
    have hrefused : ∀ m', m' = m ∨ m' = (op.apply m).2.2 → calls.Fail →
        Answer calls (requestIn rbuf rlen) m ((op.reply { code := -1 }).text t') m' := by
      intro m' hmap hfail
      rw [reply_failed]
      exact .failed hrequest hfail hmap
    cases hcalled with
    | lockFailed hlock => exact ⟨B, m, hr, hm, hrefused m (Or.inl rfl) (Or.inl hlock)⟩
    | unlocked h =>
      cases h with
      | did h =>
        refine ⟨_, _, h.represents, h.holds, ?_⟩
        rw [response_of_did h]
        exact .did hrequest
      | failed hfail => exact ⟨B, m, hr, hm, hrefused m (Or.inl rfl) (Or.inr (Or.inr hfail))⟩
    | unlockFailed h hunlock =>
      have hfail : calls.Fail := Or.inr (Or.inl hunlock)
      cases h with
      | did h => exact ⟨_, _, h.represents, h.holds, hrefused _ (Or.inr rfl) hfail⟩
      | failed => exact ⟨B, m, hr, hm, hrefused m (Or.inl rfl) hfail⟩

/-! ## The service -/

/-- A client with lines to say, what it has heard, and the map that it talks to. -/
structure Service where
  map : Map
  lines : List Str
  heard : Str

namespace Service

inductive Label where
  /-- The next line of the client is answered. -/
  | mine (calls : Calls)
  /-- Another worker serves a request. -/
  | other (e : ServeEvent)

inductive Step (v : Service) : Label → Service → Prop
  | mine {calls : Calls} {line reply : Str} {lines : List Str} {map : Map}
      (hline : v.lines = line :: lines)
      (h : Answer calls (requestOf (words line)) v.map (some reply) map) :
      Step v (.mine calls) ⟨map, lines, v.heard ++ (reply ++ [newline])⟩
  | other {e : ServeEvent} {map : Map}
      (h : Answer e.calls (requestIn e.rbuf e.rlen) v.map e.text map) :
      Step v (.other e) { v with map := map }

/-- Nobody else asks, and nothing fails. -/
def Label.Alone : Label → Prop
  | .mine calls => ¬ calls.Fail
  | .other _ => False

end Service

/-- The operation a request is for. -/
def Request.toOp (q : Request) : Option Op :=
  match q.cmd, q.value with
  | .create, some value => some (.insert q.key value)
  | .read, none => some (.search q.key)
  | .update, some value => some (.update q.key value)
  | .delete, none => some (.delete q.key)
  | _, _ => none

/-- The answer to a line, and the map it leaves. -/
def answer (m : Map) (line : Str) : Str × Map :=
  match requestOf (words line) with
  | .error _ => (gMsgs .invalid, m)
  | .ok q =>
    match q.toOp with
    | some op => (op.response m, (op.apply m).2.2)
    | none => (gMsgs .invalid, m)

/-- The answers to the lines, each with a newline. -/
def answers (m : Map) : List Str → Str
  | [] => []
  | line :: lines => (answer m line).1 ++ [newline] ++ answers (answer m line).2 lines

theorem request_toOp : (⟨op.cmd, op.key, op.value?⟩ : Request).toOp = some op := by
  cases op <;> rfl

/-- When nothing fails, a line has one answer. -/
theorem Answer.answer_eq {line : Str} (hfail : ¬ calls.Fail)
    (h : Answer calls (requestOf (words line)) m (some reply) m') :
    answer m line = (reply, m') := by
  unfold answer
  generalize hrequest : requestOf (words line) = request at h
  generalize hsaid : some reply = said at h
  cases h with
  | incomplete => exact absurd hsaid (by simp)
  | invalid h =>
    rw [h]
    obtain rfl := Option.some.inj hsaid
    rfl
  | did h =>
    rw [h]
    dsimp only
    rw [request_toOp]
    obtain rfl := Option.some.inj hsaid
    rfl
  | failed h hfailed => exact absurd hfailed hfail

namespace Service

variable {v v' : Service} {l : Label} {ls : List Label}

/-- What the client has heard, and what it will hear, stays the same when it is alone. -/
theorem answers_step (halone : l.Alone) (hstep : Step v l v') :
    v'.heard ++ answers v'.map v'.lines = v.heard ++ answers v.map v.lines := by
  cases hstep with
  | mine hline h =>
    rw [hline, answers, h.answer_eq halone]
    dsimp only
    rw [List.append_assoc, List.append_assoc]
  | other => exact halone.elim

theorem answers_run (halone : ∀ l ∈ ls, l.Alone) (hrun : Run Step v ls v') :
    v'.heard ++ answers v'.map v'.lines = v.heard ++ answers v.map v.lines := by
  induction hrun with
  | nil => rfl
  | snoc _ hlast ih =>
    rw [answers_step (halone _ (by simp)) hlast]
    exact ih fun l hl => halone l (List.mem_append_left _ hl)

end Service

end SnuSysProg.Skvs
