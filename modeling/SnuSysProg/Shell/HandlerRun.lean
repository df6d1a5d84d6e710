import Mathlib.Data.Nat.Digits.Defs
import SnuSysProg.Shell.Interleaving

/-
  One run of `sigzombie_handler`.

  `sigzombieHandler t pids` is an invocation in which `waitpid` gives the children `pids`. It
  leaves the entries of the children that were not reaped, and writes a line for every group that
  has lost its last entry, in the order in which they lost it (`sigzombieHandler_correct`). The
  rounds of the handler among the other events are this function (`reaps_sigzombieHandler`).
-/

namespace SnuSysProg.Shell
open SnuSysProg.Lib

/-- The loop of the handler: the table, and what it writes to the pipe. -/
def sigzombieHandler (t : Table) : List Int → Table × List (List Char)
  | [] => (t, [])
  | pid :: pids =>
    let (t', written) := handleChild t pid
    let (t'', lines) := sigzombieHandler t' pids
    (t'', written.toList ++ lines)

/-! ## What it is for -/

/-- The entries of the children that are not among `pids`. -/
def unreaped (entries : List BgProcess) (pids : List Int) : List BgProcess :=
  entries.filter fun e => e.pid ∉ pids

def HasEntry (entries : List BgProcess) (pgid : Int) : Prop := ∃ e ∈ entries, e.pgid = pgid

/-- The group `g` loses its last entry before `g'` does. -/
def LosesBefore (entries : List BgProcess) (pids : List Int) (g g' : Int) : Prop :=
  ∃ k, ¬ HasEntry (unreaped entries (pids.take k)) g ∧
    HasEntry (unreaped entries (pids.take k)) g'

def doneLine (pgid : Int) : String := "[" ++ toString pgid ++ "] Done background process group\n"

variable {t : Table} {pid pgid g : Int} {pids : List Int} {entries : List BgProcess} {n : Nat}

/-! ## The number -/

theorem digitChar_eq (h : n < 10) : Char.ofNat ('0'.toNat + n) = n.digitChar := by
  have hall : ∀ m < 10, Char.ofNat ('0'.toNat + m) = m.digitChar := by decide
  exact hall n h

/-- `int_to_str` writes the number in decimal. -/
theorem intToStr_toDigits : intToStr n = Nat.toDigits 10 n := by
  unfold intToStr
  induction n using Nat.strongRecOn with
  | ind n ih =>
    rw [tempLoop, digitChar_eq (Nat.mod_lt n (by decide))]
    by_cases hn : 0 < n / 10
    · rw [if_pos hn, tempLoop_append, List.nil_append, List.reverse_append, ih (n / 10) (by omega),
        Nat.toDigits_of_base_le (by decide) (by omega : 10 ≤ n)]
      rfl
    · rw [if_neg hn, Nat.toDigits_of_lt_base (by omega : n < 10),
        Nat.mod_eq_of_lt (by omega : n < 10)]
      rfl

theorem doneMessage_eq (h : 0 ≤ pgid) : doneMessage pgid = (doneLine pgid).toList := by
  obtain ⟨n, rfl⟩ := Int.eq_ofNat_of_zero_le h
  have hdigits : (toString (n : Int)).toList = Nat.toDigits 10 n := Nat.toList_repr
  unfold doneMessage doneLine
  rw [intToStr_toDigits, String.toList_append, String.toList_append, hdigits]
  rfl

/-- A pid is an `int`, so the digits fit into `temp` and the line into `buffer`. -/
theorem doneMessage_length (h : pgid < 2 ^ 31) :
    (tempLoop pgid.toNat []).length ≤ 16 ∧ (doneMessage pgid).length ≤ 64 := by
  have hdigits : (tempLoop pgid.toNat []).length ≤ 10 := by
    have hlen : (intToStr pgid.toNat).length ≤ 10 := by
      rw [intToStr_toDigits, Nat.length_toDigits_le_iff (by decide) (by decide)]
      omega
    rwa [intToStr, List.length_reverse] at hlen
  constructor
  · omega
  · unfold doneMessage intToStr
    rw [List.length_cons, List.length_append, List.length_reverse]
    have hrest : (']' :: ' ' :: "Done background process group\n".toList).length = 32 := by decide
    omega

/-! ## One child -/

theorem hasPgid_iff : t.hasPgid pgid = true ↔ HasEntry t.entries pgid := by
  unfold Table.hasPgid HasEntry
  rw [List.any_eq_true]
  simp

theorem handleChild_unknown (h : pid ∉ t.entries.map BgProcess.pid) :
    handleChild t pid = (t, none) := by
  have hnone : t.findPid pid = none := by
    unfold Table.findPid
    rw [List.findIdx?_eq_none_iff]
    intro e he
    exact decide_eq_false fun heq => h (List.mem_map.mpr ⟨e, he, heq⟩)
  unfold handleChild
  rw [hnone]

/-- One child changes the entries as if it were the only one that is reaped. -/
theorem handleChild_unreaped (pid : Int) (h : (t.entries.map BgProcess.pid).Nodup) :
    (handleChild t pid).1.entries = unreaped t.entries [pid] := by
  rw [handleChild_entries]
  generalize t.entries = entries at h
  induction entries with
  | nil => rfl
  | cons e entries ih =>
    obtain ⟨hhead, hrest⟩ := List.nodup_cons.mp h
    by_cases hpid : e.pid = pid
    · have hall : unreaped entries [pid] = entries := by
        refine List.filter_eq_self.mpr fun e' he' => ?_
        have hne : e'.pid ≠ pid :=
          fun heq => hhead (List.mem_map.mpr ⟨e', he', heq.trans hpid.symm⟩)
        simpa using hne
      have hdrop : unreaped (e :: entries) [pid] = unreaped entries [pid] :=
        List.filter_cons_of_neg (by simpa using hpid)
      rw [List.eraseP_cons_of_pos (by simpa using hpid), hdrop, hall]
    · have hkeep : unreaped (e :: entries) [pid] = e :: unreaped entries [pid] :=
        List.filter_cons_of_pos (by simpa using hpid)
      rw [List.eraseP_cons_of_neg (by simpa using hpid), hkeep, ih hrest]

/-- The two entries of a child are one. -/
theorem pid_inj (h : (entries.map BgProcess.pid).Nodup) {e e' : BgProcess} (he : e ∈ entries)
    (he' : e' ∈ entries) (heq : e.pid = e'.pid) : e = e' :=
  List.inj_on_of_nodup_map h he he' heq

/-- The handler writes the line of the group of the child, if that has no entry any more. -/
theorem handleChild_groups (pid : Int) (h : (t.entries.map BgProcess.pid).Nodup)
    (hgroups : ∀ e ∈ t.entries, 0 ≤ e.pgid) :
    ∃ gs : List Int, (handleChild t pid).2.toList = gs.map (fun g => (doneLine g).toList) ∧
      (∀ g, g ∈ gs ↔ HasEntry t.entries g ∧ ¬ HasEntry (unreaped t.entries [pid]) g) ∧
      gs.length ≤ 1 := by
  have hentries := handleChild_unreaped pid h
  cases hfound : t.findPid pid with
  | none =>
    have hall : unreaped t.entries [pid] = t.entries := by
      refine List.filter_eq_self.mpr fun e he => ?_
      simpa using List.findIdx?_eq_none_iff.mp hfound e he
    refine ⟨[], ?_, fun g => ?_, Nat.zero_le 1⟩
    · unfold handleChild
      rw [hfound]
      rfl
    · rw [hall]
      exact iff_of_false List.not_mem_nil fun hg => hg.2 hg.1
  | some i =>
    obtain ⟨hlt, hpid, -⟩ := List.findIdx?_eq_some_iff_getElem.mp hfound
    have hget : t.entries[i] = t.arr i := by
      have hsome := Table.getElem?_entries (t := t) (i := i) (Table.length_entries ▸ hlt)
      rwa [List.getElem?_eq_getElem hlt, Option.some.injEq] at hsome
    have hmem : t.arr i ∈ t.entries := hget ▸ List.getElem_mem hlt
    have hpid : (t.arr i).pid = pid := by
      rw [← hget]
      simpa using hpid
    -- the only group that can lose an entry is that of the child
    have hlost : ∀ g, HasEntry t.entries g → ¬ HasEntry (unreaped t.entries [pid]) g →
        g = (t.arr i).pgid := by
      rintro g ⟨e, he, rfl⟩ hnot
      by_cases heq : e.pid = pid
      · rw [pid_inj h he hmem (heq.trans hpid.symm)]
      · exact absurd ⟨e, List.mem_filter.mpr ⟨he, by simpa using heq⟩, rfl⟩ hnot
    have hremoved : (t.remove i).entries = unreaped t.entries [pid] := by
      rw [← hentries]
      unfold handleChild
      rw [hfound]
    have hwritten : (handleChild t pid).2 =
        if (t.remove i).hasPgid (t.arr i).pgid then none
        else some (doneMessage (t.arr i).pgid) := by
      unfold handleChild
      rw [hfound]
    rw [hwritten]
    by_cases hhas : HasEntry (unreaped t.entries [pid]) (t.arr i).pgid
    · refine ⟨[], ?_, fun g => ?_, Nat.zero_le 1⟩
      · rw [if_pos (hasPgid_iff.mpr (hremoved ▸ hhas))]
        rfl
      · refine iff_of_false List.not_mem_nil fun hg => hg.2 ?_
        rwa [hlost g hg.1 hg.2]
    · refine ⟨[(t.arr i).pgid], ?_, fun g => ?_, Nat.le_refl 1⟩
      · rw [if_neg fun hany => hhas (hremoved ▸ hasPgid_iff.mp hany),
          doneMessage_eq (hgroups _ hmem)]
        rfl
      · rw [List.mem_singleton]
        constructor
        · rintro rfl
          exact ⟨⟨_, hmem, rfl⟩, hhas⟩
        · exact fun hg => hlost g hg.1 hg.2

/-! ## All of them -/

theorem sigzombieHandler_cons : sigzombieHandler t (pid :: pids) =
    ((sigzombieHandler (handleChild t pid).1 pids).1,
      (handleChild t pid).2.toList ++ (sigzombieHandler (handleChild t pid).1 pids).2) := rfl

theorem unreaped_nil : unreaped entries [] = entries := by
  unfold unreaped
  exact List.filter_eq_self.mpr fun e _ => by simp

theorem unreaped_cons :
    unreaped entries (pid :: pids) = unreaped (unreaped entries [pid]) pids := by
  unfold unreaped
  rw [List.filter_filter]
  refine List.filter_congr fun e _ => ?_
  simp [Bool.and_comm]

theorem HasEntry.of_unreaped (h : HasEntry (unreaped entries pids) g) : HasEntry entries g := by
  obtain ⟨e, he, hg⟩ := h
  exact ⟨e, List.mem_of_mem_filter he, hg⟩

theorem unreaped_nodup (h : (entries.map BgProcess.pid).Nodup) :
    ((unreaped entries pids).map BgProcess.pid).Nodup :=
  h.sublist (List.filter_sublist.map _)

/-- What a group loses after the first child, it loses in the whole run. -/
theorem LosesBefore.cons {g' : Int} (h : LosesBefore (unreaped entries [pid]) pids g g') :
    LosesBefore entries (pid :: pids) g g' := by
  obtain ⟨k, hgone, hthere⟩ := h
  refine ⟨k + 1, ?_, ?_⟩
  · rwa [List.take_succ_cons, unreaped_cons]
  · rwa [List.take_succ_cons, unreaped_cons]

theorem sigzombieHandler_entries (h : (t.entries.map BgProcess.pid).Nodup) :
    (sigzombieHandler t pids).1.entries = unreaped t.entries pids := by
  induction pids generalizing t with
  | nil => exact unreaped_nil.symm
  | cons pid pids ih =>
    have hfirst := handleChild_unreaped pid h
    have hnodup : ((handleChild t pid).1.entries.map BgProcess.pid).Nodup := by
      rw [hfirst]
      exact unreaped_nodup h
    have hrest := ih hnodup
    rw [hfirst, ← unreaped_cons] at hrest
    exact hrest

/-- The groups of the lines, in the order of the lines. -/
theorem sigzombieHandler_groups (pids : List Int) (h : (t.entries.map BgProcess.pid).Nodup)
    (hgroups : ∀ e ∈ t.entries, 0 ≤ e.pgid) :
    ∃ gs : List Int, (sigzombieHandler t pids).2 = gs.map (fun g => (doneLine g).toList) ∧
      (∀ g, g ∈ gs ↔ HasEntry t.entries g ∧ ¬ HasEntry (unreaped t.entries pids) g) ∧
      gs.Pairwise (LosesBefore t.entries pids) := by
  induction pids generalizing t with
  | nil =>
    refine ⟨[], rfl, fun g => ?_, List.Pairwise.nil⟩
    rw [unreaped_nil]
    exact iff_of_false List.not_mem_nil fun hg => hg.2 hg.1
  | cons pid pids ih =>
    have hfirst := handleChild_unreaped pid h
    obtain ⟨now, hnow, hmemnow, hone⟩ := handleChild_groups pid h hgroups
    obtain ⟨gs, hlines, hmem, hordered⟩ := ih (t := (handleChild t pid).1)
      (hfirst ▸ unreaped_nodup h)
      (fun e he => hgroups e (List.mem_of_mem_filter (hfirst ▸ he)))
    rw [hfirst] at hmem hordered
    refine ⟨now ++ gs, ?_, fun g => ?_, List.pairwise_append.mpr ⟨?_, ?_, fun g hg g' hg' => ?_⟩⟩
    · rw [sigzombieHandler_cons, hnow, hlines, List.map_append]
    · rw [List.mem_append, hmemnow, hmem, ← unreaped_cons]
      constructor
      · rintro (⟨hhad, hlost⟩ | ⟨hhad, hlost⟩)
        · refine ⟨hhad, fun hlater => hlost ?_⟩
          rw [unreaped_cons] at hlater
          exact hlater.of_unreaped
        · exact ⟨hhad.of_unreaped, hlost⟩
      · rintro ⟨hhad, hlost⟩
        by_cases hnext : HasEntry (unreaped t.entries [pid]) g
        · exact Or.inr ⟨hnext, hlost⟩
        · exact Or.inl ⟨hhad, hnext⟩
    · cases now with
      | nil => exact List.Pairwise.nil
      | cons g now =>
        obtain rfl : now = [] := by simpa using hone
        exact List.pairwise_singleton _ _
    · exact hordered.imp fun hlose => hlose.cons
    · exact ⟨1, ((hmemnow g).mp hg).2, ((hmem g').mp hg').1⟩

/-- Children that are not in the table do not matter. -/
theorem sigzombieHandler_known {entries : List BgProcess} (h : ∀ e ∈ t.entries, e ∈ entries) :
    sigzombieHandler t pids =
      sigzombieHandler t (pids.filter fun pid => pid ∈ entries.map BgProcess.pid) := by
  induction pids generalizing t with
  | nil => rfl
  | cons pid pids ih =>
    by_cases hknown : pid ∈ entries.map BgProcess.pid
    · have hnext : ∀ e ∈ (handleChild t pid).1.entries, e ∈ entries := by
        rw [handleChild_entries]
        exact fun e he => h e (List.mem_of_mem_eraseP he)
      rw [List.filter_cons_of_pos (by simpa using hknown), sigzombieHandler_cons,
        sigzombieHandler_cons, ← ih hnext]
    · have hunknown : pid ∉ t.entries.map BgProcess.pid := by
        intro hmem
        obtain ⟨e, he, rfl⟩ := List.mem_map.mp hmem
        exact hknown (List.mem_map.mpr ⟨e, h e he, rfl⟩)
      rw [List.filter_cons_of_neg (by simpa using hknown), ← ih h, sigzombieHandler_cons,
        handleChild_unknown hunknown]
      rfl

theorem sigzombieHandler_correct (h : (t.entries.map BgProcess.pid).Nodup)
    (hgroups : ∀ e ∈ t.entries, 0 ≤ e.pgid) :
    (sigzombieHandler t pids).1.entries = unreaped t.entries pids ∧
      (∃ gs : List Int, (sigzombieHandler t pids).2 = gs.map (fun g => (doneLine g).toList) ∧
        gs.Nodup ∧
        (∀ g, g ∈ gs ↔ HasEntry t.entries g ∧ ¬ HasEntry (unreaped t.entries pids) g) ∧
        gs.Pairwise (LosesBefore t.entries pids)) ∧
      sigzombieHandler t pids =
        sigzombieHandler t (pids.filter fun pid => pid ∈ t.entries.map BgProcess.pid) := by
  obtain ⟨gs, hlines, hmem, hordered⟩ := sigzombieHandler_groups pids h hgroups
  refine ⟨sigzombieHandler_entries h, ⟨gs, hlines, ?_, hmem, hordered⟩,
    sigzombieHandler_known fun _ he => he⟩
  exact hordered.imp fun hlose heq => by
    obtain ⟨k, hgone, hthere⟩ := hlose
    exact hgone (heq ▸ hthere)

/-- Two groups of two, and a child that is not in the table. -/
theorem sigzombieHandler_two : (sigzombieHandler
      ⟨fun i => [⟨7, 7⟩, ⟨8, 7⟩, ⟨12, 12⟩, ⟨13, 12⟩].getD i ⟨0, 0⟩, 4⟩ [8, 12, 99, 13]).1.entries =
    [⟨7, 7⟩] :=
  (sigzombieHandler_correct (by decide) (by decide)).1.trans (by decide)

/-! ## Among the events -/

variable {s s' : Snush} {text : Option (List Char)}

theorem ShellEvent.of_reap (h : ShellEvent s (.reap pid text) s') :
    handleChild s.table pid = (s'.table, text) := by
  generalize he : Event.reap pid text = e at h
  cases h with
  | reap hhandling hzombie =>
    obtain ⟨rfl, rfl⟩ := Event.reap.inj he
    rfl
  | _ => exact absurd he (by simp)

/-- The rounds of the handler, with no other event between them. -/
theorem reaps_sigzombieHandler {reaped : List (Int × Option (List Char))}
    (hrun : Run ShellEvent s (reaped.map fun r => .reap r.1 r.2) s') :
    sigzombieHandler s.table (reaped.map Prod.fst) =
      (s'.table, (reaped.map Prod.snd).reduceOption) := by
  induction reaped generalizing s with
  | nil =>
    rw [hrun.of_nil]
    rfl
  | cons r reaped ih =>
    obtain ⟨pid, text⟩ := r
    obtain ⟨s₁, hstep, hrest⟩ := hrun.of_cons
    rw [List.map_cons, sigzombieHandler_cons, hstep.of_reap, ih hrest]
    cases text with
    | none => rfl
    | some text => rfl

end SnuSysProg.Shell
