import KernelPid.Pid.Idr
import KernelPid.Pid.LiveTable

/-!
# The last pid that `/proc` reports

The cursor of an `idr` is the next number to try, and `last_pid` is the last one given out.
`loadavg` takes 1 from what `pid_ns_get_cursor` returns, which is right for a cursor;
`pid_ns_ctl_handler` knows the two apart. With an `idr` both report the last number
(`idr_showsLast`). With a list, `ns_last_pid` does, and `loadavg` is one behind it after every
allocation and every write (`loadavg_one_behind`).
-/

namespace KernelPid

open Runs PidSkiplist FirstIn

variable {σ τ ι : Type}

def EPERM : ℤ := 1

/-! ## The readers and the writer -/

/-- What a process does with a sysctl file that holds one `int`. -/
inductive CtlAccess
  | read
  | write (v : ℤ)
deriving DecidableEq

/-- `proc_dointvec_minmax` for an `int` that is `next`: what it is afterwards, and what a read
shows, or an error number. -/
structure KernelSysctl where
  dointvecMinmax : (min max next : ℤ) → CtlAccess → Except ℤ ℤ
  read : ∀ min max next, dointvecMinmax min max next .read = .ok next
  write : ∀ min max next v, min ≤ v → v ≤ max → dointvecMinmax min max next (.write v) = .ok v
  refused : ∀ min max next v, v < min ∨ max < v →
    dointvecMinmax min max next (.write v) = .error (-EINVAL)

def KernelSysctl.flat : KernelSysctl where
  dointvecMinmax min max next access :=
    match access with
    | .read => .ok next
    | .write v => if min ≤ v ∧ v ≤ max then .ok v else .error (-EINVAL)
  read _ _ _ := rfl
  write min max next v h₁ h₂ := if_pos ⟨h₁, h₂⟩
  refused min max next v h := if_neg (by omega)

/-- `pid_ns_get_cursor(ns)` with `CONFIG_PID_SKIPLIST` -/
def pidNsGetCursor (d : PidNamespace σ) : ℤ := d.lastPid

/-- The last field of `loadavg_proc_show` and of `show_spu_loadavg`, from what
`pid_ns_get_cursor` returns. -/
def loadavgProcShow (cursor : ℤ) : ℤ := wrapInt (cursor - 1)

/-- `pid_ns_ctl_handler` with `CONFIG_PID_SKIPLIST`: the namespace, and the number read
or written. -/
def pidNsCtlHandler (S : KernelSysctl) (capable : Bool) (pidMax : ℤ) (d : PidNamespace σ)
    (access : CtlAccess) : PidNamespace σ × Except ℤ ℤ :=
  if access ≠ .read ∧ capable = false then (d, .error (-EPERM))
  else
    match S.dointvecMinmax 0 pidMax d.lastPid access with
    | .error e => (d, .error e)
    | .ok next => (if access = .read then d else { d with lastPid := next }, .ok next)

/-- `/proc/loadavg` and `ns_last_pid` both show the number `nr`. -/
structure ShowsLast (S : KernelSysctl) (d : PidNamespace σ) (nr : ℤ) : Prop where
  loadavg : loadavgProcShow (pidNsGetCursor d) = nr
  nsLastPid : ∀ capable pidMax, (pidNsCtlHandler S capable pidMax d .read).2 = .ok nr

theorem pidNsCtlHandler_read (S : KernelSysctl) (capable : Bool) (pidMax : ℤ) (d : PidNamespace σ) :
    pidNsCtlHandler S capable pidMax d .read = (d, .ok d.lastPid) := by
  simp [pidNsCtlHandler, S.read]

/-- A write is accepted from a process that may write, of a number up to `pid_max`. -/
theorem pidNsCtlHandler_write (S : KernelSysctl) (capable : Bool) (pidMax : ℤ)
    (d : PidNamespace σ) (v : ℤ) :
    (∃ e, pidNsCtlHandler S capable pidMax d (.write v) = (d, .error e)) ∨
      capable = true ∧ 0 ≤ v ∧ v ≤ pidMax ∧
        pidNsCtlHandler S capable pidMax d (.write v) = ({ d with lastPid := v }, .ok v) := by
  cases capable with
  | false => exact Or.inl ⟨-EPERM, by simp [pidNsCtlHandler]⟩
  | true =>
      by_cases hv : 0 ≤ v ∧ v ≤ pidMax
      · right
        refine ⟨rfl, hv.1, hv.2, ?_⟩
        simp [pidNsCtlHandler, S.write 0 pidMax d.lastPid v hv.1 hv.2]
      · left
        refine ⟨-EINVAL, ?_⟩
        have hout : v < 0 ∨ pidMax < v := by omega
        simp [pidNsCtlHandler, S.refused 0 pidMax d.lastPid v hout]

/-! ## With an `idr` -/

/-- `idr_set_cursor` -/
structure KernelIdrCursor (τ : Type) extends KernelIdr τ where
  setCursor : τ → ℤ → τ
  getCursor_setCursor : ∀ i c, getCursor (setCursor i c) = c

/-- `pid_ns_ctl_handler` without `CONFIG_PID_SKIPLIST` -/
def pidNsCtlHandlerIdr (I : KernelIdrCursor τ) (S : KernelSysctl) (capable : Bool) (pidMax : ℤ)
    (i : τ) (access : CtlAccess) : τ × Except ℤ ℤ :=
  if access ≠ .read ∧ capable = false then (i, .error (-EPERM))
  else
    match S.dointvecMinmax 0 pidMax (wrapInt (I.getCursor i - 1)) access with
    | .error e => (i, .error e)
    | .ok next => (if access = .read then i else I.setCursor i (wrapInt (next + 1)), .ok next)

/-- With a cursor that is behind the number `nr`, `loadavg` and `ns_last_pid` both show `nr`. -/
structure ShowsLastIdr (I : KernelIdrCursor τ) (S : KernelSysctl) (i : τ) (nr : ℤ) : Prop where
  loadavg : loadavgProcShow (I.getCursor i) = nr
  nsLastPid : ∀ capable pidMax, (pidNsCtlHandlerIdr I S capable pidMax i .read).2 = .ok nr

section Idr

variable {I : KernelIdrCursor τ} {i : τ} {pidMax nr : ℤ}

theorem idrPick_bounds {id : ℤ} (h : idrPick I.toKernelIdr i pidMax = some id) :
    1 ≤ id ∧ id < pidMax := by
  have hstart : (1 : ℤ) ≤ if I.getCursor i > reservedPids then reservedPids else 1 := by
    unfold reservedPids
    split <;> omega
  rcases Option.or_eq_some_iff.mp h with hhigh | ⟨-, hlow⟩
  · obtain ⟨h₁, h₂, -⟩ := firstIn_eq_some_iff.mp hhigh
    exact ⟨hstart.trans ((Int.le_max_right _ _).trans h₁), h₂⟩
  · obtain ⟨h₁, h₂, -⟩ := firstIn_eq_some_iff.mp hlow
    exact ⟨hstart.trans h₁, h₂⟩

/-- A write is accepted from a process that may write, of a number up to `pid_max`. -/
theorem pidNsCtlHandlerIdr_write (S : KernelSysctl) {capable : Bool} {v w : ℤ}
    (h : (pidNsCtlHandlerIdr I S capable pidMax i (.write v)).2 = .ok w) :
    0 ≤ v ∧ v ≤ pidMax ∧
      (pidNsCtlHandlerIdr I S capable pidMax i (.write v)).1 = I.setCursor i (wrapInt (v + 1)) := by
  cases capable with
  | false => simp [pidNsCtlHandlerIdr] at h
  | true =>
      by_cases hv : 0 ≤ v ∧ v ≤ pidMax
      · refine ⟨hv.1, hv.2, ?_⟩
        simp [pidNsCtlHandlerIdr, S.write 0 pidMax _ v hv.1 hv.2]
      · have hout : v < 0 ∨ pidMax < v := by omega
        simp [pidNsCtlHandlerIdr, S.refused 0 pidMax _ v hout] at h

theorem showsLastIdr_of_cursor (S : KernelSysctl) (hnr : 0 ≤ nr) (hint : nr < 2 ^ 31)
    (hcursor : I.getCursor i = nr + 1) : ShowsLastIdr I S i nr := by
  have hback : wrapInt (I.getCursor i - 1) = nr := by
    rw [hcursor, Int.add_sub_cancel]
    exact wrapInt_of_lt hnr hint
  refine ⟨hback, fun capable pidMax => ?_⟩
  simp [pidNsCtlHandlerIdr, hback, S.read]

/-- With an `idr`, `loadavg` and `ns_last_pid` show the number that was given out or
written last. -/
theorem idr_showsLast (I : KernelIdrCursor τ) (S : KernelSysctl) (i : τ)
    (hmax : pidMax < 2 ^ 31 - 1) :
    (∀ id, idrPick I.toKernelIdr i pidMax = some id →
      ShowsLastIdr I S (reserveIdr I.toKernelIdr true pidMax i).1 id) ∧
    ∀ capable v w, (pidNsCtlHandlerIdr I S capable pidMax i (.write v)).2 = .ok w →
      ShowsLastIdr I S (pidNsCtlHandlerIdr I S capable pidMax i (.write v)).1 v := by
  constructor
  · intro id hid
    obtain ⟨h₁, h₂⟩ := idrPick_bounds hid
    obtain ⟨i', hrun, hcursor, -⟩ := reserveIdr_some hid
    rw [hrun]
    exact showsLastIdr_of_cursor S (by omega) (by omega) hcursor
  · intro capable v w hw
    obtain ⟨h₁, h₂, hset⟩ := pidNsCtlHandlerIdr_write S hw
    apply showsLastIdr_of_cursor S h₁ (by omega)
    -- the number behind an accepted one is an `int`
    rw [hset, I.getCursor_setCursor, wrapInt_of_lt (by omega) (by omega)]

end Idr

/-! ## With a list -/

/-- One less is never the same `int`. -/
theorem wrapInt_pred_ne (x : ℤ) : wrapInt (x - 1) ≠ x := by
  intro h
  have hmod := Int.bmod_emod (x := x - 1) (m := 2 ^ 32)
  unfold wrapInt at h
  rw [h] at hmod
  omega

/-- `loadavg` never shows what `ns_last_pid` does. -/
theorem not_showsLast (S : KernelSysctl) (d : PidNamespace σ) (nr : ℤ) : ¬ ShowsLast S d nr := by
  intro h
  have hread := h.nsLastPid true 0
  rw [pidNsCtlHandler_read] at hread
  have hlast : d.lastPid = nr := Except.ok.inj hread
  have hshow := h.loadavg
  rw [← hlast] at hshow
  exact wrapInt_pred_ne d.lastPid hshow

/-! ## Runs -/

/-- A complete call that changes the lists, or a read or write of `ns_last_pid` by a
process of `ns`. -/
inductive CursorCall (ι : Type)
  | alloc (ns : ι) (env : AllocEnv)
  | free (p : PidAddr)
  | disable (ns : ι)
  | ctl (ns : ι) (capable : Bool) (pidMax : ℤ) (access : CtlAccess)

/-- One call. -/
def cursorStep [DecidableEq ι] (S : KernelSysctl) (B : PidList σ) (T : PidNsTree ι)
    (s : Ledger σ ι) : CursorCall ι → Except Fault (Ledger σ ι)
  | .alloc ns env => callStep B T s (.alloc ns env)
  | .free p => callStep B T s (.free p)
  | .disable ns => callStep B T s (.disable ns)
  | .ctl ns capable pidMax access =>
    .ok { s with K := s.K.setNs ns (pidNsCtlHandler S capable pidMax (s.K.ns ns) access).1 }

/-- The call from `s` to `s'` gave out the number `nr` in `n`, or it was a write of `nr` to `n`'s
`ns_last_pid` that was accepted. -/
def Latest (S : KernelSysctl) (s s' : Ledger σ ι) (n : ι) (nr : ℤ) : CursorCall ι → Prop
  | .alloc _ _ => ∃ p, s'.live = p :: s.live ∧ s'.Has p nr n
  | .ctl ns capable pidMax (.write v) => ns = n ∧ v = nr ∧
    ∃ w, (pidNsCtlHandler S capable pidMax (s.K.ns ns) (.write v)).2 = .ok w
  | _ => False

variable {B : PidList σ} {Rep : σ → Bindings PidAddr → Prop} {adm : NodeEnv → Prop}
  {T : PidNsTree ι}
  {s : Ledger σ ι} {A : MapKernel ι} [DecidableEq ι]

/-- What the handler does to a namespace is a write of `last_pid`. -/
theorem pidNsCtlHandler_fst (S : KernelSysctl) (capable : Bool) (pidMax : ℤ) (d : PidNamespace σ)
    (access : CtlAccess) :
    ∃ v, (pidNsCtlHandler S capable pidMax d access).1 = { d with lastPid := v } := by
  cases access with
  | read => exact ⟨d.lastPid, by rw [pidNsCtlHandler_read]⟩
  | write v =>
      rcases pidNsCtlHandler_write S capable pidMax d v with ⟨e, h⟩ | ⟨-, -, -, h⟩
      · exact ⟨d.lastPid, by rw [h]⟩
      · exact ⟨v, by rw [h]⟩

/-- Every call keeps the table, and the `last_pid` of a namespace is the number that was given out
or written there. -/
theorem Ledger.Follows.cursorStep (hB : Simulates B Rep adm) (h : s.Follows Rep T A)
    (S : KernelSysctl) (a : CursorCall ι) (hadm : ∀ ns env, AllocAdmissible T adm A ns env) :
    ∃ s' A', KernelPid.cursorStep S B T s a = .ok s' ∧ s'.Follows Rep T A' ∧
      ∀ {n nr}, Latest S s s' n nr a → (s'.K.ns n).lastPid = nr := by
  cases a with
  | alloc ns env =>
      obtain ⟨K', r, A', hrun, hlast, ⟨p, rfl, h'⟩ | ⟨e, rfl, h', -⟩⟩ :=
        h.allocPid hB ns env (hadm ns env)
      · refine ⟨_, A', by simp only [KernelPid.cursorStep, callStep, hrun, ok_bind], h', ?_⟩
        rintro n nr ⟨q, hq, -, ho⟩
        obtain rfl : p = q := (List.cons.inj hq).1
        rw [(h'.K.ns n).lastPid]
        exact hlast p nr n rfl ((Kernel.owns_congr (congrFun h'.K.pid p) nr n).mp ho)
      · refine ⟨_, A', by simp only [KernelPid.cursorStep, callStep, hrun, ok_bind], h', ?_⟩
        rintro n nr ⟨q, hq, -⟩
        exact absurd hq.symm (List.cons_ne_self q s.live)
  | free p =>
      obtain ⟨s', A', hstep, h'⟩ := callStep_table hB h (.free p) (by simp)
      exact ⟨s', A', hstep, h', False.elim⟩
  | disable ns =>
      obtain ⟨s', A', hstep, h'⟩ := callStep_table hB h (.disable ns) (by simp)
      exact ⟨s', A', hstep, h', False.elim⟩
  | ctl ns capable pidMax access =>
      obtain ⟨v, hv⟩ := pidNsCtlHandler_fst S capable pidMax (s.K.ns ns) access
      obtain ⟨s', A', hstep, h'⟩ := callStep_table hB h (.writeLastPid ns v) (by simp)
      refine ⟨s', A', ?_, h', fun {n nr} hlatest => ?_⟩
      · simp only [KernelPid.cursorStep, hv]
        exact hstep
      · obtain rfl := Except.ok.inj hstep
        cases access with
        | read => exact hlatest.elim
        | write u =>
            obtain ⟨rfl, rfl, w, hw⟩ := hlatest
            rcases pidNsCtlHandler_write S capable pidMax (s.K.ns ns) u with ⟨e, he⟩ | ⟨-, -, -, hu⟩
            · rw [he] at hw
              simp at hw
            · rw [hu] at hv
              simp only [writeLastPid, Kernel.setNs, Function.update_self]
              exact (congrArg PidNamespace.lastPid hv).symm

/-- After any run of the plain build, and a call that gave out the number `nr` or wrote it:
`ns_last_pid` shows `nr`, and `loadavg` shows one less. The two agree after no call at all, and in
no state of a run of the RB build. -/
theorem loadavg_one_behind (S : KernelSysctl) (T : PidNsTree ι) (as : List (CursorCall ι)) :
    (∀ a, ∃ s s', run (cursorStep S plainList T) (Ledger.init init) as = .ok s ∧
      cursorStep S plainList T s a = .ok s' ∧ ∀ n nr, ¬ ShowsLast S (s'.K.ns n) nr ∧
        (Latest S s s' n nr a →
          (∀ capable pidMax, (pidNsCtlHandler S capable pidMax (s'.K.ns n) .read).2 = .ok nr) ∧
          loadavgProcShow (pidNsGetCursor (s'.K.ns n)) = wrapInt (nr - 1))) ∧
    ∀ (rb : KernelRbtree) (s : Ledger (PidRbSkiplist PidAddr) ι),
      run (cursorStep S (rbList rb) T) (Ledger.init PidRbSkiplist.init) as = .ok s →
        ∀ n nr, ¬ ShowsLast S (s.K.ns n) nr := by
  refine ⟨fun a => ?_, fun rb s _ n nr => not_showsLast S _ nr⟩
  obtain ⟨s, hrun, A, h⟩ := run_invariant_always
    (I := fun s : Ledger _ ι => ∃ A, s.Follows Represents T A)
    (fun s a hI => by
      obtain ⟨A, h⟩ := hI
      obtain ⟨s', A', hstep, h', -⟩ :=
        h.cursorStep plainList_simulates S a (allocAdmissible_true T A)
      exact ⟨s', hstep, A', h'⟩)
    ⟨_, ledger_init represents_init⟩ as
  obtain ⟨s', A', hstep, -, hlast⟩ :=
    h.cursorStep plainList_simulates S a (allocAdmissible_true T A)
  refine ⟨s, s', hrun, hstep,
    fun n nr => ⟨not_showsLast S _ nr, fun hlatest => ⟨fun capable pidMax => ?_, ?_⟩⟩⟩
  · rw [pidNsCtlHandler_read, hlast hlatest]
  · rw [loadavgProcShow, pidNsGetCursor, hlast hlatest]

/-- The first call of all gives out the number 1. -/
theorem latest_first {s s' : Ledger (PidSkiplist PidAddr) Unit}
    (hrun : run (cursorStep .flat plainList soleNs) (Ledger.init init) [] = .ok s)
    (hstep : cursorStep .flat plainList soleNs s (.alloc () (grantAll 32768)) = .ok s') :
    Latest .flat s s' () 1 (.alloc () (grantAll 32768)) := by
  obtain rfl := Except.ok.inj hrun
  have hcomputed : (cursorStep .flat plainList soleNs (Ledger.init init)
    (.alloc () (grantAll 32768))).map
      (fun s => (s.live, (s.K.pid 0).bind fun d => d.numbers 0)) = .ok ([0], some ⟨1, ()⟩) := rfl
  obtain ⟨s₁, hs₁, heq⟩ := exists_of_map_eq_ok hcomputed
  obtain rfl : s' = s₁ := Except.ok.inj (hstep.symm.trans hs₁)
  obtain ⟨hlive, hnum⟩ := Prod.mk.inj heq
  obtain ⟨d, hd, hone⟩ := Option.bind_eq_some_iff.mp hnum
  refine ⟨0, hlive, ?_, d, hd, 0, hone⟩
  rw [hlive]
  exact List.mem_singleton_self 0

/-- The first process has the number 1: `ns_last_pid` shows 1, and `loadavg` shows 0. -/
theorem loadavg_one_behind_first :
    (∃ s : Ledger (PidSkiplist PidAddr) Unit,
      cursorStep .flat plainList soleNs (Ledger.init init) (.alloc () (grantAll 32768)) = .ok s ∧
        (pidNsCtlHandler .flat true 4 (s.K.ns ()) .read).2 = .ok 1 ∧
        loadavgProcShow (pidNsGetCursor (s.K.ns ())) = 0) ∧
    ∃ s : Ledger (PidRbSkiplist PidAddr) Unit,
      run (cursorStep .flat (rbList .flat) soleNs) (Ledger.init PidRbSkiplist.init)
        [.alloc () (grantAll 32768)] = .ok s ∧ ¬ ShowsLast .flat (s.K.ns ()) 1 := by
  constructor
  · obtain ⟨s, s', hrun, hstep, hlatest⟩ :=
      (loadavg_one_behind .flat soleNs []).1 (.alloc () (grantAll 32768))
    obtain ⟨hread, hshow⟩ := (hlatest () 1).2 (latest_first hrun hstep)
    obtain rfl := Except.ok.inj hrun
    exact ⟨s', hstep, hread true 4, hshow⟩
  · have hcomputed : (run (cursorStep .flat (rbList .flat) soleNs) (Ledger.init PidRbSkiplist.init)
        [.alloc () (grantAll 32768)]).map (fun s : Ledger _ Unit => s.live) = .ok [0] := rfl
    obtain ⟨s, hrun, -⟩ := exists_of_map_eq_ok hcomputed
    exact ⟨s, hrun, (loadavg_one_behind .flat soleNs _).2 .flat s hrun () 1⟩

/-- `loadavg` and `ns_last_pid` do not agree on the number of the first process. -/
theorem loadavg_behind_ns_last_pid :
    ¬ ∀ (as : List (CursorCall Unit)) (a : CursorCall Unit)
        (s s' : Ledger (PidSkiplist PidAddr) Unit),
      run (cursorStep .flat plainList soleNs) (Ledger.init init) as = .ok s →
        cursorStep .flat plainList soleNs s a = .ok s' →
          ∀ n nr, Latest .flat s s' n nr a → ShowsLast .flat (s'.K.ns n) nr := by
  intro hall
  have hcomputed : (cursorStep .flat plainList soleNs (Ledger.init init)
    (.alloc () (grantAll 32768))).map
      (fun s : Ledger (PidSkiplist PidAddr) Unit => s.live) = .ok [0] := rfl
  obtain ⟨s', hstep, -⟩ := exists_of_map_eq_ok hcomputed
  exact not_showsLast .flat _ 1 (hall [] _ _ s' rfl hstep () 1 (latest_first rfl hstep))

end KernelPid
