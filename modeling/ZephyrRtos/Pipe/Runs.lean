import ZephyrRtos.Lib.Monitor
import ZephyrRtos.Pipe.Laws

namespace ZephyrRtos.Pipe

open Function (update_of_ne update_self)

open List Lib Sched Sys

variable {cfg : Config} {τ : Type}

namespace Event

def thread : Event τ → τ
  | .called t _ _ | .accepted t _ | .delivered t _ | .timedOut t | .returned t _ _ => t

def written : Event τ → List UInt8
  | .accepted _ bytes => bytes
  | _ => []

def read : Event τ → List UInt8
  | .delivered _ bytes => bytes
  | _ => []

end Event

/-- How far a call is: which bytes it has moved and whether its time is over. -/
inductive Phase
  | idle
  | active (kind : Kind) (len : ℕ) (bytes : List UInt8) (timedOut : Bool)

namespace Phase

/-- A call returns the number of its bytes, which are those in its buffer and, unless its time is
over, all it was to move, or `-EAGAIN` if there are none and its time is over. -/
def on : Phase → Event τ → Option Phase
  | .idle, .called _ kind len => some (.active kind len [] false)
  | .active .write len moved late, .accepted _ bytes =>
    some (.active .write len (moved ++ bytes) late)
  | .active .read len moved late, .delivered _ bytes =>
    some (.active .read len (moved ++ bytes) late)
  | .active kind len moved _, .timedOut _ => some (.active kind len moved true)
  | .active _ len moved late, .returned _ value bytes =>
    if bytes = moved ∧ (late = false → moved.length = len) ∧
      value = (if moved = [] ∧ late then -eagain else moved.length) then some .idle else none
  | _, _ => none

section On

variable {t : τ} {kind : Kind} {len : ℕ} {moved bytes : List UInt8} {late : Bool} {value : ℤ}

@[simp] theorem on_called : idle.on (.called t kind len) = some (.active kind len [] false) := rfl

@[simp] theorem on_accepted : (active .write len moved late).on (.accepted t bytes) =
    some (.active .write len (moved ++ bytes) late) := rfl

@[simp] theorem on_delivered : (active .read len moved late).on (.delivered t bytes) =
    some (.active .read len (moved ++ bytes) late) := rfl

@[simp] theorem on_timedOut : (active kind len moved late).on (.timedOut t) =
    some (.active kind len moved true) := by cases kind <;> rfl

theorem on_returned (hlen : late = false → moved.length = len)
    (hv : value = if moved = [] ∧ late then -eagain else moved.length) :
    (active kind len moved late).on (.returned t value moved) = some .idle := by
  cases kind <;> exact if_pos ⟨rfl, hlen, hv⟩

end On

end Phase

variable {s s' : State cfg τ} {t u : τ} {a : Action τ} {es : List (Event τ)} {place : Section}
  {n : ℕ} {buf : RingBuf cfg.idxBits} {data : Memory}

namespace Call

def phase (c : Call) (late : Bool) : Phase := .active c.kind c.len c.bytes late

theorem length_bytes (c : Call) : c.bytes.length = c.used := Memory.length_list ..

theorem bytes_eq_nil {c : Call} : c.bytes = [] ↔ c.used = 0 := by
  rw [← length_eq_zero_iff, length_bytes]

theorem rc_eq {c : Call} (hu : c.used ≤ c.len) (hl : (c.len : ℤ) ≤ int32Max) :
    c.rc = c.bytes.length := by
  rw [length_bytes]
  exact int32_eq

theorem on_returned {c : Call} (heq : c.used = c.len) (hl : (c.len : ℤ) ≤ int32Max) :
    (c.phase false).on (.returned t c.rc c.bytes) = some .idle :=
  Phase.on_returned (fun _ => c.length_bytes.trans heq) (by simp [rc_eq heq.le hl])

end Call

namespace State

def phase (s : State cfg τ) (thread : τ) : Phase :=
  match s.pc thread with
  | .outside => .idle
  | .inside => (s.call thread).phase false
  | .waiting => (s.call thread).phase
    (s.sched.pendedOn thread = none ∧ s.sched.swapRetval thread ≠ 0 : Prop)

theorem phase_outside (h : s.pc t = .outside) : s.phase t = .idle := by
  rw [phase, h]

theorem phase_inside (h : s.pc t = .inside) : s.phase t = (s.call t).phase false := by
  rw [phase, h]

theorem phase_pended (h : s.pc t = .waiting) (hp : s.sched.pendedOn t = some q) :
    s.phase t = (s.call t).phase false := by
  simp [phase, h, hp]

theorem phase_woken (h : s.pc t = .waiting) (hr : s.sched.swapRetval t = 0) :
    s.phase t = (s.call t).phase false := by
  simp [phase, h, hr]

theorem phase_expired (h : s.pc t = .waiting) (hp : s.sched.pendedOn t = none)
    (hr : s.sched.swapRetval t ≠ 0) : s.phase t = (s.call t).phase true := by
  simp [phase, h, hp, hr]

theorem phase_of_eq (hpc : s'.pc t = s.pc t) (hc : s'.call t = s.call t)
    (hp : s'.sched.pendedOn t = s.sched.pendedOn t)
    (hr : s'.sched.swapRetval t = s.sched.swapRetval t) : s'.phase t = s.phase t := by
  simp [phase, hpc, hc, hp, hr]

theorem giveUp_eq (hu : (s.call t).used ≤ (s.call t).len)
    (hl : ((s.call t).len : ℤ) ≤ int32Max) :
    ((s.call t).phase true).on (.returned t (s.giveUp t) (s.call t).bytes) = some .idle := by
  refine Phase.on_returned nofun ?_
  rw [giveUp, Call.rc_eq hu hl]
  by_cases hz : (s.call t).used = 0
  · simp [Call.bytes_eq_nil]
  · simp [Call.bytes_eq_nil]

variable [DecidableEq τ]

structure Traced (s : State cfg τ) (es : List (Event τ)) (s' : State cfg τ) : Prop where
  stream : s.ring ++ es.flatMap Event.written = es.flatMap Event.read ++ s'.ring
  calls : Follows Event.thread Phase.on es s.phase s'.phase

theorem Traced.quiet (hr : s'.ring = s.ring) (h : ∀ t, s'.phase t = s.phase t) :
    s.Traced [] s' := ⟨by simp [hr], .quiet h⟩

theorem Traced.append (h : s.Traced es s') (h' : s'.Traced es' s'') : s.Traced (es ++ es') s'' := by
  refine ⟨?_, h.calls.append h'.calls⟩
  rw [flatMap_append, flatMap_append, ← append_assoc, h.stream, append_assoc,
    h'.stream, append_assoc]

theorem traced_leave (hw : es.flatMap Event.written = []) (hr : es.flatMap Event.read = [])
    (he : ∀ e ∈ es, e.thread = t)
    (hon : es.foldlM (watch Event.thread Phase.on t) (s.phase t) = some .idle) :
    s.Traced es ({ s with waiting := k }.leave t) := by
  have hidle : ({ s with waiting := k }.leave t).phase t = .idle := phase_outside (update_self ..)
  refine ⟨by rw [hw, hr]; simp [ring, leave], fun u => ?_⟩
  obtain rfl | hut := eq_or_ne u t
  · rw [hon, hidle]
  · have hsame : ({ s with waiting := k }.leave t).phase u = s.phase u :=
      phase_of_eq (update_of_ne hut _ _) rfl rfl rfl
    rw [foldlM_watch_other _ fun e h => (he e h).trans_ne hut.symm, hsame]

theorem traced_returned (hp : s.phase t = p) (hon : p.on (.returned t value bytes) = some .idle) :
    s.Traced [.returned t value bytes] ({ s with waiting := k }.leave t) :=
  traced_leave rfl rfl (by simp [Event.thread]) (by simp [watch, Event.thread, hp, hon])

theorem traced_proceed (h : s.Wf) (hl : s.lock = some (t, place)) :
    s.Traced (s.proceed t).2 (s.proceed t).1 := by
  rw [proceed]
  split
  · next heq =>
    exact traced_returned (phase_inside (h.inside hl)) (Call.on_returned heq (h.len_le hl))
  · exact .quiet rfl fun _ => rfl

theorem traced_fill (h : s.Wf) (hl : s.lock = some (t, .fill))
    (hput : s.buf.ringBufPut (s.call t).data (s.call t).used
      (((s.call t).len - (s.call t).used) % 2 ^ 32) = (buf, n)) :
    s.Traced [.accepted t ((s.call t).data.list (s.call t).used n)]
      (s.moved t buf (s.call t).data n) := by
  obtain ⟨-, -, hh⟩ := h.ringBufPut hl hput
  obtain ⟨hkind, -⟩ := h.place t _ hl
  have hin := h.inside hl
  refine ⟨?_, .of_mem (fun u hu => ?_) ?_⟩
  · have hring : (s.moved t buf (s.call t).data n).ring = _ := hh.contents
    simp [Event.written, Event.read, hring]
  · have hut : u ≠ t := by simpa [Event.thread, eq_comm] using hu
    exact phase_of_eq rfl (update_of_ne hut _ _) rfl rfl
  have ht : (s.moved t buf (s.call t).data n).phase t =
      .active .write (s.call t).len
        ((s.call t).bytes ++ (s.call t).data.list (s.call t).used n) false := by
    rw [phase_inside (by exact hin)]
    simp [moved, setCall, Call.phase, Call.bytes, Memory.list_add, hkind]
  simp [watch, Event.thread, phase_inside hin, Call.phase, hkind, ht]

theorem traced_drain (h : s.Wf) (hl : s.lock = some (t, .drain))
    (hget : s.buf.ringBufGet (s.call t).data (s.call t).used
      (((s.call t).len - (s.call t).used) % 2 ^ 32) = (buf, data, n)) :
    s.Traced [.delivered t (data.list (s.call t).used n)] (s.moved t buf data n) := by
  obtain ⟨-, -, hh, hlist, hoff⟩ := h.ringBufGet hl hget
  obtain ⟨hkind, -⟩ := h.place t _ hl
  have hin := h.inside hl
  refine ⟨?_, .of_mem (fun u hu => ?_) ?_⟩
  · have hring : (s.moved t buf data n).ring = _ := hh.contents
    simp [Event.written, Event.read, hring, hlist]
  · have hut : u ≠ t := by simpa [Event.thread, eq_comm] using hu
    exact phase_of_eq rfl (update_of_ne hut _ _) rfl rfl
  have hsame : data.list 0 (s.call t).used = (s.call t).bytes :=
    Memory.list_congr (hoff.agree (.inl (by omega)))
  have ht : (s.moved t buf data n).phase t =
      .active .read (s.call t).len ((s.call t).bytes ++ data.list (s.call t).used n) false := by
    rw [phase_inside (by exact hin)]
    simp [moved, setCall, Call.phase, Call.bytes, Memory.list_add, hkind, hsame]
  simp [watch, Event.thread, phase_inside hin, Call.phase, hkind, ht]

theorem traced_transfer (h : s.Wf) (hl : s.lock = some (t, .copy)) (hp : s.Pends u .data)
    (hut : u ≠ t) (hpu : s.phase u = (s.call u).phase false) (hring : s'.ring = s.ring)
    (hpc : s'.pc = s.pc) (hcall : s'.call = (s.transfer t u n).call)
    (hu : s'.phase u = (s'.call u).phase false)
    (hother : ∀ v, v ≠ u → s'.sched.pendedOn v = s.sched.pendedOn v ∧
      s'.sched.swapRetval v = s.sched.swapRetval v) :
    s.Traced [.accepted t ((s.call t).data.list (s.call t).used n),
      .delivered u ((s.call t).data.list (s.call t).used n)] s' := by
  obtain ⟨hkind, hempty⟩ := h.place t _ hl
  have hin := h.inside hl
  have hkind' : (s.call u).kind = .read := by
    have := hp.queue
    cases hk : (s.call u).kind with
    | read => rfl
    | write => simp [hk, Kind.queue] at this
  refine ⟨by simp [Event.written, Event.read, hring, hempty], .of_mem (fun v hv => ?_) ?_⟩
  · have hvt : v ≠ t := (hv _ (.head _)).symm
    have hvu : v ≠ u := (hv _ (.tail _ (.head _))).symm
    refine phase_of_eq (congrFun hpc v) ?_ (hother v hvu).1 (hother v hvu).2
    rw [hcall]
    simp [transfer, setCall, hvt, hvu]
  have ht' : s'.phase t = .active .write (s.call t).len
      ((s.call t).bytes ++ (s.call t).data.list (s.call t).used n) false := by
    rw [phase_inside (by rw [hpc, hin]), hcall, transfer_call_writer s t n hut]
    simp [Call.phase, Call.bytes, Memory.list_add, hkind]
  have hsame : ((s.call u).data.paste (s.call u).used (s.call t).data (s.call t).used n).list 0
      (s.call u).used = (s.call u).bytes :=
    Memory.list_congr ((Memory.agreeOff_paste _ _).agree (.inl (by omega)))
  have hu' : s'.phase u = .active .read (s.call u).len
      ((s.call u).bytes ++ (s.call t).data.list (s.call t).used n) false := by
    rw [hu, hcall]
    simp [Call.phase, Call.bytes, Memory.list_add, hkind', Memory.list_paste_self]
    exact hsame
  simp [watch, Event.thread, phase_inside hin, hpu, Call.phase, hkind, hkind', ht', hu', hut,
    hut.symm]

theorem Wf.traced (h : s.Wf) (hm : Move s a s' es) : s.Traced es s' := by
  cases hm with
  | @call t kind data len w hpc hfree =>
    refine ⟨by simp [Event.written, Event.read, State.ring, State.enter, State.setCall],
      .of_mem (fun u hu => ?_) ?_⟩
    · have hut : u ≠ t := by simpa [Event.thread, eq_comm] using hu
      exact phase_of_eq (update_of_ne hut _ _) (update_of_ne hut _ _) rfl rfl
    · have ht : ((s.setCall t ⟨kind, data, len, 0, w⟩).enter t).phase t =
          .active kind len [] false := by
        rw [phase_inside (update_self ..)]
        simp [State.enter, State.setCall, Call.phase, Call.bytes]
      simp [watch, Event.thread, phase_outside hpc, ht]
  | go => exact .quiet rfl fun _ => rfl
  | @wakeOne _ q u l hq =>
    have hp := (h.order.head hq).1
    have hpends := h.pends u q hp
    refine .quiet rfl fun v => ?_
    obtain rfl | hvu := eq_or_ne v u
    · rw [phase_pended hpends.pc hp, phase_woken (by exact hpends.pc) (by simp)]
    · exact phase_of_eq rfl rfl (by simp [hvu]) (by simp [hvu])
  | @copyMore _ t u l n hl hq hn hlt =>
    have hp := (h.order.head hq).1
    obtain ⟨hpends, hut⟩ := h.reader hl hq
    exact traced_transfer h hl hpends hut (phase_pended hpends.pc hp) rfl rfl rfl
      (phase_pended (by exact hpends.pc) hp) fun _ _ => ⟨rfl, rfl⟩
  | @copyAll _ t u l n place hl hq hle hn hplace =>
    have hp := (h.order.head hq).1
    obtain ⟨hpends, hut⟩ := h.reader hl hq
    exact traced_transfer h hl hpends hut (phase_pended hpends.pc hp) rfl rfl rfl
      (phase_woken (by exact hpends.pc) (by simp [State.stay]))
      fun v hvu => ⟨by simp [State.stay, hvu], by simp [State.stay, hvu]⟩
  | copied hl hle =>
    exact traced_returned (phase_inside (h.inside hl))
      (Call.on_returned ((h.used_le hl).antisymm hle) (h.len_le hl))
  | fill hl hput hs =>
    have hproceed := traced_proceed (h.fill hl hput).1 hl
    rw [hs] at hproceed
    exact (traced_fill h hl hput).append hproceed
  | drain hl hget hs =>
    have hproceed := traced_proceed (h.drain hl hget).1 hl
    rw [hs] at hproceed
    exact (traced_drain h hl hget).append hproceed
  | giveUp hl =>
    refine traced_leave rfl rfl (by simp [Event.thread]) ?_
    have hon := giveUp_eq (h.used_le hl) (h.len_le hl)
    simp only [Call.phase] at hon
    simp [watch, Event.thread, phase_inside (h.inside hl), Call.phase, hon]
  | @pend _ t w hl =>
    refine .quiet rfl fun v => ?_
    obtain rfl | hvt := eq_or_ne v t
    · rw [phase_inside (h.inside hl), phase_pended (update_self ..)
        (update_self ..)]
      rfl
    · exact phase_of_eq (update_of_ne hvt _ _) rfl (update_of_ne hvt _ _)
        (update_of_ne hvt _ _)
  | @resume _ t hpc hp hfree hr =>
    refine .quiet rfl fun v => ?_
    obtain rfl | hvt := eq_or_ne v t
    · rw [phase_woken hpc hr, phase_inside (update_self ..)]
      rfl
    · exact phase_of_eq (update_of_ne hvt _ _) rfl rfl rfl
  | @expired _ t hpc hp hfree hr =>
    obtain ⟨hu, hl⟩ := h.lens t (by simp [hpc])
    rw [if_pos ((h.retval t hpc).resolve_left hr)]
    exact traced_returned (phase_expired hpc hp hr) (giveUp_eq hu hl)
  | expire hs =>
    obtain ⟨hp, hr⟩ := WaitQs.expire_fields hs
    exact .quiet rfl fun v => phase_of_eq rfl rfl (congrFun hp v) (congrFun hr v)
  | @timeout _ t sched hs =>
    obtain ⟨hp, hr⟩ := WaitQs.timeout_fields hs
    have hother : ∀ v, v ≠ t → { s with sched }.phase v = s.phase v := fun v hvt =>
      phase_of_eq rfl rfl (by simp [hp, hvt]) (congrFun hr v)
    rw [WaitQs.isThreadPending]
    cases hpt : s.sched.pendedOn t with
    | none =>
      refine .quiet rfl fun v => ?_
      obtain rfl | hvt := eq_or_ne v t
      · exact phase_of_eq rfl rfl (by simp [hp, hpt]) (congrFun hr v)
      · exact hother v hvt
    | some q =>
      have hpends := h.pends t q hpt
      refine ⟨by simp [Event.written, Event.read, State.ring], .of_mem (fun v hv => hother v ?_) ?_⟩
      · exact (hv _ (.head _)).symm
      · have ht : { s with sched }.phase t = (s.call t).phase true :=
          phase_expired hpends.pc (by simp [hp]) (by simp [hr, hpends.retval, eagain])
        simp [watch, Event.thread, phase_pended hpends.pc hpt, ht, Call.phase]

end State

instance : ∀ a : Action τ, Decidable (State.LenFits a)
  | .call _ _ _ len _ => inferInstanceAs (Decidable ((len : ℤ) ≤ int32Max))
  | .advance .. | .expire _ | .timeout _ => inferInstanceAs (Decidable True)

variable [DecidableEq τ]

/-- What writes have put in is what reads have got and what is in the ring, in order, each call
returns the number of its bytes, and threads wait only for what is not there. -/
theorem pipe_byte_stream {prio : τ → ℤ} {buffer : Memory} {size : ℕ} {call : τ → Call}
    (hbits : cfg.idxBits ≤ 32) (hsize : size ≤ ringBufferMaxSize cfg.idxBits)
    (h : Reaches (pipe cfg prio buffer size call) (fun _ a => State.LenFits a) es s) :
    es.flatMap Event.written = es.flatMap Event.read ++ s.ring ∧
    Follows Event.thread Phase.on es (fun _ => .idle) s.phase ∧
    (∀ t, s.sched.pendedOn t = some .data → s.ring = []) ∧
    ∀ t, s.sched.pendedOn t = some .space → s.ring.length = s.buf.size := by
  have hh : (.init buffer size : RingBuf cfg.idxBits).Holds [] := .init hbits hsize
  have hinv : s.Wf ∧ (.init prio buffer size call : State cfg τ).Traced es s := by
    refine h.invariant (I := fun es s => s.Wf ∧ (State.init prio buffer size call).Traced es s)
      ⟨.init hh, .quiet rfl fun _ => rfl⟩ fun es s a s' es' hi hok hs => ?_
    have hm := State.move_of_step hs
    exact ⟨hi.1.move hok hm, hi.2.append (hi.1.traced hm)⟩
  refine ⟨?_, hinv.2.calls, hinv.1.empty, hinv.1.full⟩
  have hnil : (.init prio buffer size call : State cfg τ).ring = [] := hh.contents
  have hstream := hinv.2.stream
  rwa [hnil, nil_append] at hstream

def upTo (b : UInt8) : Memory := fun i => b + .ofNat i

/-- A read of four bytes gets three of them from one write and the last one from another, which
puts the rest into the ring. -/
theorem pipe_byte_stream_direct : ∃ es s,
    Reaches (pipe ⟨16, false⟩ (fun _ : Fin 3 => 0) (fun _ => 0) 2
      fun _ => ⟨.read, fun _ => 0, 0, 0, .noWait⟩) (fun _ a => State.LenFits a) es s ∧
    s.ring = [5, 6] ∧ .returned 0 4 [1, 2, 3, 4] ∈ es ∧
    es.flatMap Event.written = [1, 2, 3, 4] ++ s.ring := by
  obtain ⟨es, s, hrun, hring, hret, hread⟩ := Reaches.of_exec
    (pipe ⟨16, false⟩ (fun _ : Fin 3 => 0) (fun _ => 0)
      2 fun _ => ⟨.read, fun _ => 0, 0, 0, .noWait⟩) (fun _ a => State.LenFits a)
    [.call 0 .read (fun _ => 0) 4 .forever, .advance 0 false, .advance 0 false, .advance 0 false,
      .call 1 .write (upTo 1) 3 .noWait, .advance 1 false, .advance 1 false, .advance 1 false,
      .call 2 .write (upTo 4) 3 .ticks, .advance 2 false, .advance 2 false, .advance 2 false,
      .advance 2 false, .advance 2 false,
      .advance 0 false, .advance 0 false, .advance 0 false, .advance 0 false]
    (fun es s => s.ring = [5, 6] ∧ .returned 0 4 [1, 2, 3, 4] ∈ es ∧
      es.flatMap Event.read = [1, 2, 3, 4]) (by decide +kernel)
  have hstream := (pipe_byte_stream (by decide) (by decide) hrun).1
  exact ⟨es, s, hrun, hring, hret, hread ▸ hstream⟩

/-- The length of 2^32 bytes is 0 in the 32 bits that the ring takes: the write waits for space in
an empty ring, and no read will ever wake it. -/
theorem pipe_write_stuck : ∃ es s,
    Reaches (pipe ⟨16, false⟩ (fun _ : Fin 2 => 0) (fun _ => 0) 4
      fun _ => ⟨.read, fun _ => 0, 0, 0, .noWait⟩) (fun _ _ => True) es s ∧
    s.lock = none ∧ s.ring = [] ∧ s.buf.size = 4 ∧ s.sched.pendedOn 0 = some .space ∧
    s.sched.pendedOn 1 = some .data := by
  exact Reaches.of_exec _ _
    [.call 0 .write (upTo 1) (2 ^ 32) .forever, .advance 0 false, .advance 0 false,
      .advance 0 false, .call 1 .read (fun _ => 0) 1 .forever, .advance 1 false, .advance 1 false,
      .advance 1 false] _ (by decide +kernel)

end ZephyrRtos.Pipe
