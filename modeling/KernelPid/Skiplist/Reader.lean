import KernelPid.Skiplist.Writer

/-!
# The readers, one memory access at a time

A reader call runs outside the writer's lock. `readerStep` is one of its steps: one read of
`sl->header` or `sl->level`, one `READ_ONCE` of a forward pointer, one read of a node's key or
value. The three readers differ only after their loops. Run without a writer beside them they return
what the functions of the model return (`reader_alone`).
-/

namespace KernelPid.PidSkiplist

open Runs

variable {α : Type}

/-- A reader; `iterNextRcu` is the first call of an iteration, with a `NULL` cursor. -/
inductive Reader
  | lookupRcu
  | findGeRcu
  | iterNextRcu
deriving DecidableEq

/-- Where a reader stands: what it reads next, and what it remembers. -/
inductive ReaderPc (α : Type)
  /-- `sl->header` -/
  | readHeader
  /-- `sl->level` -/
  | readLevel (header : Addr)
  /-- `x->forward[i - 1]`, with `i` rounds of the loop over the levels left; `x->forward[0]` once
  more when there is none left. -/
  | readForward (i : ℕ) (x : Addr)
  /-- `next->key`, in the loop at level `i` -/
  | readKey (i : ℕ) (x next : Addr)
  /-- `next->key`, behind the loops -/
  | checkKey (next : Addr)
  /-- `next->pid` -/
  | readPid (next : Addr)
  /-- The call returned `ret`, read from `node` if that is not `NULL`. -/
  | done (node : Option Addr) (ret : Option α)
deriving DecidableEq

/-- The test of the reader on the key of the node behind its loops; `pid_skiplist_find_ge_rcu` has
none. -/
def Reader.accepts (key nodeKey : ℤ) : Reader → Bool
  | .lookupRcu => nodeKey = key
  | .findGeRcu => true
  | .iterNextRcu => ¬ nodeKey < key

/-- The next step of a reader that looks for `key`. -/
def readerStep (r : Reader) (key : ℤ) (s : PidSkiplist α) :
    ReaderPc α → Except Fault (ReaderPc α)
  | .readHeader =>
    match s.header with
    | some header => .ok (.readLevel header)
    | none => if r = .findGeRcu then .error .nullDeref else .ok (.done none none)
  | .readLevel header => .ok (.readForward s.level header)
  | .readForward (i + 1) x => do
    match ← s.forward x i with
    | none => .ok (.readForward i x)
    | some next => .ok (.readKey i x next)
  | .readKey i x next => do
    let n ← s.deref next
    if n.key < key then .ok (.readForward (i + 1) next) else .ok (.readForward i x)
  | .readForward 0 x => do
    match ← s.forward x 0 with
    | none => .ok (.done none none)
    | some next => if r = .findGeRcu then .ok (.readPid next) else .ok (.checkKey next)
  | .checkKey next => do
    let n ← s.deref next
    if r.accepts key n.key then .ok (.readPid next) else .ok (.done none none)
  | .readPid next => do
    let n ← s.deref next
    .ok (.done (some next) n.pid)
  | .done node ret => .ok (.done node ret)

/-- What the reader returns when nothing runs beside it. -/
def readerCall (r : Reader) (key : ℤ) (s : PidSkiplist α) : Except Fault (Option α) :=
  match r with
  | .lookupRcu => s.lookupRcu key
  | .findGeRcu => s.findGeRcu key
  | .iterNextRcu => do
    let (_, ret) ← s.iterNextRcu none key
    .ok ret

/-! ## A reader alone -/

/-- Some number of steps take the reader from `pc` to `pc'`. -/
def Reads (r : Reader) (key : ℤ) (s : PidSkiplist α) (pc pc' : ReaderPc α) : Prop :=
  ∃ n, run (fun pc (_ : Unit) => readerStep r key s pc) pc (List.replicate n ()) = .ok pc'

variable {r : Reader} {key : ℤ} {s : PidSkiplist α} {p q t : ReaderPc α} {x x' : Addr} {i : ℕ}

theorem Reads.refl : Reads r key s p p := ⟨0, rfl⟩

theorem Reads.head (hstep : readerStep r key s p = .ok q) (h : Reads r key s q t) :
    Reads r key s p t := by
  obtain ⟨n, hn⟩ := h
  exact ⟨n + 1, by simp only [List.replicate_succ, run, hstep, ok_bind, hn]⟩

theorem Reads.trans (h : Reads r key s p q) (h' : Reads r key s q t) : Reads r key s p t := by
  obtain ⟨n, hn⟩ := h
  obtain ⟨m, hm⟩ := h'
  exact ⟨n + m, by rw [List.replicate_add, run_append, hn, ok_bind, hm]⟩

/-- The steps at one level are `walk`. -/
theorem reads_walk {fuel : ℕ} (hwalk : s.walk key i fuel x = .ok x') :
    Reads r key s (.readForward (i + 1) x) (.readForward i x') := by
  induction fuel generalizing x with
  | zero => simp [walk] at hwalk
  | succ fuel ih =>
      cases hfwd : s.forward x i with
      | error e => simp [walk, hfwd] at hwalk
      | ok o =>
          cases o with
          | none =>
              simp only [walk, hfwd, ok_bind, Except.ok.injEq] at hwalk
              subst hwalk
              exact Reads.head (by simp only [readerStep, hfwd, ok_bind]) Reads.refl
          | some y =>
              cases hy : s.deref y with
              | error e => simp [walk, hfwd, hy] at hwalk
              | ok n =>
                  refine Reads.head (q := .readKey i x y)
                    (by simp only [readerStep, hfwd, ok_bind]) ?_
                  simp only [walk, hfwd, ok_bind, hy] at hwalk
                  by_cases hkey : n.key < key
                  · rw [if_pos hkey] at hwalk
                    exact Reads.head (by simp only [readerStep, hy, ok_bind, if_pos hkey])
                      (ih hwalk)
                  · rw [if_neg hkey, Except.ok.injEq] at hwalk
                    subst hwalk
                    exact Reads.head (by simp only [readerStep, hy, ok_bind, if_neg hkey])
                      Reads.refl

/-- The steps of the loop over the levels are `descend`. -/
theorem reads_descend {n : ℕ} {update update' : ℕ → Option Addr}
    (hdesc : s.descend key n x update = .ok (x', update')) :
    Reads r key s (.readForward n x) (.readForward 0 x') := by
  induction n generalizing x update with
  | zero =>
      simp only [descend, Except.ok.injEq, Prod.mk.injEq] at hdesc
      rw [hdesc.1]
      exact Reads.refl
  | succ n ih =>
      cases hwalk : s.walk key n s.brk x with
      | error e => simp [descend, hwalk] at hdesc
      | ok y =>
          simp only [descend, hwalk, ok_bind] at hdesc
          exact (reads_walk hwalk).trans (ih hdesc)

/-- Behind the loops the reader reads `x->forward[0]` again, and the value of the node it leads to
if it accepts that node. -/
theorem reads_final (r : Reader) (key : ℤ) {o : Option Addr} (hfwd : s.forward x 0 = .ok o)
    (ret : Option α)
    (hret : match o with
      | none => ret = none
      | some y => ∃ n, s.deref y = .ok n ∧ ret = if r.accepts key n.key then n.pid else none) :
    ∃ node, Reads r key s (.readForward 0 x) (.done node ret) := by
  cases o with
  | none =>
      subst hret
      exact ⟨none, Reads.head (by simp only [readerStep, hfwd, ok_bind]) Reads.refl⟩
  | some y =>
      obtain ⟨n, hy, rfl⟩ := hret
      have hpid : Reads r key s (.readPid y) (.done (some y) n.pid) :=
        Reads.head (by simp only [readerStep, hy, ok_bind]) Reads.refl
      by_cases hr : r = .findGeRcu
      · subst hr
        have hnext : readerStep .findGeRcu key s (.readForward 0 x) = .ok (.readPid y) := by
          simp only [readerStep, hfwd, ok_bind, if_true]
        exact ⟨some y, Reads.head hnext (by simpa [Reader.accepts] using hpid)⟩
      · have hcheck : readerStep r key s (.readForward 0 x) = .ok (.checkKey y) := by
          simp only [readerStep, hfwd, ok_bind, if_neg hr]
        cases hacc : r.accepts key n.key with
        | true =>
            refine ⟨some y, Reads.head hcheck
              (Reads.head (q := .readPid y) ?_ (by simpa using hpid))⟩
            simp only [readerStep, hy, ok_bind, hacc, if_true]
        | false =>
            refine ⟨none, Reads.head hcheck (Reads.head (q := .done none none) ?_ ?_)⟩
            · simp only [readerStep, hy, ok_bind, hacc, Bool.false_eq_true, if_false]
            · simpa using Reads.refl

/-- A reader that nothing disturbs returns what the function of the model returns. -/
theorem reader_alone {h : Addr} {L : List Addr} (hs : Inv s h L) (r : Reader) (key : ℤ) :
    ∃ node ret, readerCall r key s = .ok ret ∧ Reads r key s .readHeader (.done node ret) := by
  have hdesc := hs.descend_header key fun _ => none
  have hfwd := hs.forward_below key
  have hsearch : Reads r key s .readHeader
      (.readForward 0 (Tower.lastAt s.ht 0 h (below s key L))) :=
    Reads.head (q := .readLevel h) (by simp only [readerStep, hs.header])
      (Reads.head rfl (reads_descend hdesc))
  have hfound : ∀ {y : Addr}, (above s key L).head? = some y →
      s.deref y = .ok ⟨s.key y, s.pid y, s.fwd y, s.ht y⟩ ∧ key ≤ s.key y := fun hy => by
    have hmem := (mem_above_iff hs.sorted).mp (List.mem_of_mem_head? hy)
    exact ⟨deref_eq (hs.ht_pos _ hmem.1), hmem.2⟩
  cases hhead : (above s key L).head? with
  | none =>
      rw [hhead] at hfwd
      obtain ⟨node, hnode⟩ := reads_final r key hfwd none rfl
      refine ⟨node, none, ?_, hsearch.trans hnode⟩
      cases r with
      | lookupRcu =>
          simp only [readerCall, lookupRcu, hs.header, hdesc, ok_bind, hfwd, matchKey]
      | findGeRcu => simp only [readerCall, findGeRcu, hs.getHeader, hdesc, ok_bind, hfwd]
      | iterNextRcu => simp only [readerCall, iterNextRcu, hs.header, hdesc, ok_bind, hfwd]
  | some y =>
      rw [hhead] at hfwd
      obtain ⟨hy, hle⟩ := hfound hhead
      obtain ⟨node, hnode⟩ := reads_final r key hfwd _ ⟨_, hy, rfl⟩
      refine ⟨node, _, ?_, hsearch.trans hnode⟩
      cases r with
      | lookupRcu =>
          simp only [readerCall, lookupRcu, hs.header, hdesc, ok_bind, hfwd, matchKey, hy,
            Reader.accepts, decide_eq_true_eq]
          by_cases hkey : s.key y = key
          · simp only [if_pos hkey, hy, ok_bind]
          · simp only [if_neg hkey]
      | findGeRcu =>
          simp only [readerCall, findGeRcu, hs.getHeader, hdesc, ok_bind, hfwd, hy, Reader.accepts,
            if_true]
      | iterNextRcu =>
          simp only [readerCall, iterNextRcu, hs.header, hdesc, ok_bind, hfwd, hy, Reader.accepts,
            if_neg (Int.not_lt.mpr hle)]
          simp [Int.not_lt.mpr hle]

end KernelPid.PidSkiplist
