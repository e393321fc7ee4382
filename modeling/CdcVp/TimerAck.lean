import CdcVp.TimerWait

/-!
# What an acknowledgement does to counting

`unacked` is the timer without its interrupt: the thread that an acknowledgement has woken is still at the wait
it is about to begin again. Seen so, a run is a run without writes of INTSTATUS, unless an acknowledgement
disturbs it: `Disturbs` are the steps where it restarts a tick that had begun, keeps a write from the thread,
or leaves its flag to be taken for it at a later count. `Padded` puts moves that change nothing in a run, where
another has the moves that an acknowledgement causes.
-/

namespace CdcVp
open FlatStore LittleEndian Runs

namespace Timer
variable {s s' a : Timer} {op : Op} {o : List Obs} {t : ApbPayload} {e : Step Timer Op Obs}

/-- Whether a transaction goes through does not depend on the timer. -/
theorem bTransport_isSome (s a : Timer) (t : ApbPayload) :
    (s.bTransport t).isSome = (a.bTransport t).isSome := by
  unfold bTransport
  split
  · rfl
  split
  · rfl
  dsimp only
  split
  · unfold readReg
    split_ifs <;> rfl
  · split
    · rfl
    -- A write is answered, with an address error where it does nothing.
    · rcases s.writeReg t.address _ with _ | _ <;> rcases a.writeReg t.address _ with _ | _ <;> rfl

/-! ### The timer without its interrupt -/

/-- Where the thread waits once it has had the turn that an acknowledgement owes it. -/
def restarted (s : Timer) : TimerThread :=
  if s.timerThread = .counted .clear then .counting (if s.exClk then .clock else .tick s.now)
  else s.timerThread

def unacked (s : Timer) : Timer :=
  { s with
    intrStatus := false
    intrClearInc := false
    timerint := false
    timerintNext := false
    timerThread := s.restarted
    evaluating := false }

def crossing : Obs → Option Nat
  | .counted time true => some time
  | _ => none

/-- The timer as far as it counts: the moves of `machine` less the interrupt, with the times of the zero
crossings. -/
def counter : Machine Timer Op Nat := fun s op =>
  (machine s op).map fun r => (r.1.unacked, r.2.filterMap crossing)

/-- A write of INTSTATUS, accepted or not. -/
def intStatusWrite : Op → Bool
  | .transport t => t.command ≠ .read && t.address = addrIntStatus
  | _ => false

/-- An acknowledgement in the middle of a tick; a write between an acknowledgement and the turn that it owes
the thread; a turn that takes the flag of an acknowledgement where it would have counted. -/
def Disturbs (e : Step Timer Op Obs) : Prop :=
  match e.pre.timerThread with
  | .counting (.tick since) => Acked e ∧ since ≠ e.pre.now
  | .counted .clear => Updated e
  | .counted _ => e.input = .timerThread ∧ e.pre.intrClearInc = true ∧ e.pre.gated = false ∧
      ¬ (e.pre.prstn = false ∧ e.pre.valueReg ≠ 0)
  | _ => False

instance : DecidablePred Disturbs := fun e => by
  unfold Disturbs
  split <;> infer_instance

theorem disturbs_ack {since : Nat} (ha : Acknowledges t) (hs : s.timerThread = .counting (.tick since))
    (hne : since ≠ s.now) : Disturbs ⟨s, .transport t, s', o⟩ := by
  unfold Disturbs
  dsimp only
  rw [hs]
  exact ⟨⟨t, rfl, ha⟩, hne⟩

theorem disturbs_update (hu : Updates t) (hs : s.timerThread = .counted .clear) :
    Disturbs ⟨s, .transport t, s', o⟩ := by
  unfold Disturbs
  dsimp only
  rw [hs]
  exact ⟨t, rfl, hu⟩

theorem disturbs_turn {c : Cause} (ht : s.timerThread = .counted c) (hc : c ≠ .clear)
    (hf : s.intrClearInc = true) (h : s.gated = false ∧ ¬ (s.prstn = false ∧ s.valueReg ≠ 0)) :
    Disturbs ⟨s, .timerThread, s', o⟩ := by
  unfold Disturbs
  dsimp only
  rw [ht]
  cases c with
  | clear => exact absurd rfl hc
  | timeout | extin | update | negedge => exact ⟨rfl, hf, h⟩

/-- While the thread waits, no move of the kernel or of the inputs disturbs. -/
theorem not_disturbs (hr : s.timerThread.runnable = false) (hop : ∀ t, op ≠ .transport t) :
    ¬ Disturbs ⟨s, op, s', o⟩ := by
  unfold Disturbs
  dsimp only
  rcases TimerThread.waits_of_not_runnable hr with h | h | ⟨_ | since, h⟩ <;> rw [h]
  · exact id
  · exact id
  · exact id
  · rintro ⟨⟨t, ht, -⟩, -⟩
    exact hop t ht

theorem restarted_of_ne (h : s.timerThread ≠ .counted .clear) : s.restarted = s.timerThread := if_neg h

theorem restarted_ne_clear (s : Timer) : s.restarted ≠ .counted .clear := by
  unfold restarted
  split
  · exact TimerThread.noConfusion
  · assumption

theorem unacked_unacked (s : Timer) : s.unacked.unacked = s.unacked := by
  have h : s.unacked.restarted = s.restarted := restarted_of_ne s.restarted_ne_clear
  rw [unacked, h]
  rfl

/-- The thread of a timer that owes it no turn. -/
theorem unacked_of_ne (h : s.timerThread ≠ .counted .clear) : s.unacked =
    { s with
      intrStatus := false
      intrClearInc := false
      timerint := false
      timerintNext := false
      evaluating := false } := by
  rw [unacked, restarted_of_ne h]

theorem notifyUpdate_ne_clear {u : TimerThread} (h : u ≠ .counted .clear) :
    u.notifyUpdate ≠ .counted .clear := by
  cases u with
  | counted c => exact h
  | counting w => exact fun h => by cases h
  | disabled => exact fun h => by cases h
  | start | inReset | leftReset | leftDisabled => exact h

/-- An acknowledgement that does not come in the middle of a tick. -/
theorem unacked_ack (hw : s.WaitInv)
    (hsince : ∀ since, s.timerThread = .counting (.tick since) → since = s.now) :
    ({ s with
      intrStatus := false
      intrClearInc := true
      timerThread := s.timerThread.notifyClear } : Timer).unacked = s.unacked := by
  unfold unacked restarted
  cases ht : s.timerThread with
  | counting w =>
    cases w with
    | clock =>
      have hx := (hw.clock ht).2.2
      unfold exClk at hx ⊢
      simp [TimerThread.notifyClear, hx]
    | tick since =>
      have hx := (hw.tick ht).2.2.1
      unfold exClk at hx ⊢
      simp [TimerThread.notifyClear, hx, hsince since ht]
  | start | inReset | leftReset | disabled | leftDisabled | counted => rfl

theorem unacked_update (hne : s.timerThread ≠ .counted .clear) (ctrl value reload : UInt32) :
    ({ s.unacked with
      ctrlReg := ctrl
      valueReg := value
      reloadReg := reload
      timerThread := s.unacked.timerThread.notifyUpdate } : Timer).unacked =
    ({ s with
      ctrlReg := ctrl
      valueReg := value
      reloadReg := reload
      timerThread := s.timerThread.notifyUpdate } : Timer).unacked := by
  have hn := notifyUpdate_ne_clear hne
  simp only [unacked, restarted, if_neg hne, if_neg hn]

/-- A write of another register, where no acknowledgement is owed a turn. -/
theorem unacked_effect (ht : intStatusWrite (.transport t) = false)
    (hu : Updates t → s.timerThread ≠ .counted .clear) :
    (effect t s.unacked).unacked = (effect t s).unacked := by
  by_cases hr : t.command = .read ∨ wordOf t = none
  · rw [effect_refused hr, effect_refused hr, unacked_unacked]
  obtain ⟨hc, hn⟩ := not_or.1 hr
  obtain ⟨data, hd⟩ := Option.ne_none_iff_exists'.1 hn
  rw [effect, effect, hd]
  dsimp only
  rw [if_neg hc, if_neg hc]
  unfold writeReg
  by_cases h0 : t.address = addrCtrl
  · rw [if_pos h0, if_pos h0]
    exact unacked_update (hu ⟨data, .inl ⟨hc, h0, hd⟩⟩) _ _ _
  rw [if_neg h0, if_neg h0]
  by_cases h1 : t.address = addrValue
  · rw [if_pos h1, if_pos h1]
    exact unacked_update (hu ⟨data, .inr (.inl ⟨hc, h1, hd⟩)⟩) _ _ _
  rw [if_neg h1, if_neg h1]
  by_cases h2 : t.address = addrReload
  · rw [if_pos h2, if_pos h2]
    exact unacked_update (hu ⟨data, .inr (.inr ⟨hc, h2, hd⟩)⟩) _ _ _
  rw [if_neg h2, if_neg h2]
  have h3 : t.address ≠ addrIntStatus := by
    intro h3
    simp [intStatusWrite, hc, h3] at ht
  rw [if_neg h3, if_neg h3]
  exact unacked_unacked s

theorem unacked_intStatusWrite (ht : intStatusWrite (.transport t) = true) (hw : s.WaitInv)
    (hsince : Acknowledges t → ∀ since, s.timerThread = .counting (.tick since) → since = s.now) :
    (effect t s).unacked = s.unacked := by
  obtain ⟨hc, h3⟩ : t.command ≠ .read ∧ t.address = addrIntStatus := by simpa [intStatusWrite] using ht
  unfold effect
  split
  · rfl
  rename_i data hd
  rw [if_neg hc, writeReg, h3, if_neg (by decide), if_neg (by decide), if_neg (by decide), if_pos rfl]
  split
  · rename_i hbit
    exact unacked_ack hw (hsince ⟨data, ⟨hc, h3, hd⟩, hbit⟩)
  · rfl

/-! ### The steps -/

/-- While an acknowledgement is owed a turn, ENABLE is as it was when the wait for the next count began. -/
def AckInv (s : Timer) : Prop := s.WaitInv ∧ (s.timerThread = .counted .clear → s.enabled = true)

theorem machine_transport (h : machine s (.transport t) = some (s', o)) :
    s' = { effect t s with evaluating := true } ∧ o.filterMap crossing = [] := by
  obtain ⟨⟨b, t', o'⟩, hb, heq⟩ := Option.map_eq_some_iff.1 h
  cases heq
  obtain ⟨rfl, ho⟩ := bTransport_effect hb
  refine ⟨rfl, ?_⟩
  rcases ho with rfl | ⟨v, -, -, rfl⟩ <;> rfl

theorem exists_machine_transport (h : machine s (.transport t) = some (s', o)) (a : Timer) :
    ∃ o', machine a (.transport t) = some ({ effect t a with evaluating := true }, o') ∧
      o'.filterMap crossing = [] := by
  obtain ⟨r, hr⟩ : ∃ r, machine a (.transport t) = some r := by
    rw [← Option.isSome_iff_exists, machine, Option.isSome_map, bTransport_isSome a s, ← Option.isSome_map]
    exact Option.isSome_iff_exists.2 ⟨_, h⟩
  obtain ⟨b, o'⟩ := r
  obtain ⟨rfl, ho⟩ := machine_transport hr
  exact ⟨o', hr, ho⟩

/-- A write of INTSTATUS changes nothing that is seen. -/
theorem unacked_of_intStatusWrite (h : machine s op = some (s', o)) (hop : intStatusWrite op = true)
    (hw : s.WaitInv) (hok : ¬ Disturbs ⟨s, op, s', o⟩) :
    s'.unacked = s.unacked ∧ o.filterMap crossing = [] := by
  cases op with
  | transport t =>
    obtain ⟨rfl, ho⟩ := machine_transport h
    refine ⟨unacked_intStatusWrite hop hw ?_, ho⟩
    intro ha since hs
    by_contra hne
    exact hok (disturbs_ack ha hs hne)
  | prstn | extin | timerThread | delta | advance => cases hop

theorem counter_transport (h : machine s (.transport t) = some (s', o))
    (hop : intStatusWrite (.transport t) = false) (hok : ¬ Disturbs ⟨s, .transport t, s', o⟩) :
    counter s.unacked (.transport t) = some (s'.unacked, o.filterMap crossing) := by
  obtain ⟨rfl, ho⟩ := machine_transport h
  obtain ⟨o', hm, ho'⟩ := exists_machine_transport h s.unacked
  have hu : (effect t s.unacked).unacked = (effect t s).unacked := by
    refine unacked_effect hop ?_
    intro hu hs
    exact hok (disturbs_update hu hs)
  rw [counter, hm, Option.map_some, ho, ho']
  exact congrArg (fun c => some (c, [])) hu

theorem deltaCycle_settled (settled : s.Settled) : s.deltaCycle = s := by
  obtain ⟨ht, -, he, hp, hx, hl⟩ := settled
  cases s
  dsimp only at ht he hp hx hl
  subst hp hx hl he
  simp only [deltaCycle, Bool.and_not_self, Bool.not_and_self, ht]

theorem settled_advance {time : Nat} (settled : s.Settled)
    (hno : ∀ since, s.timerThread = .counting (.tick since) → time < since + s.tickPeriod) :
    ({ s with now := time } : Timer).Settled := by
  refine ⟨?_, settled.2⟩
  have ht := settled.1
  revert ht
  cases h : s.timerThread with
  | counting w =>
    cases w with
    | clock => exact fun _ => rfl
    | tick since => exact fun _ => if_neg (Nat.not_le.2 (hno since h))
  | start | inReset | leftReset | disabled | leftDisabled | counted => exact fun _ => rfl

/-- Time may stop on its way. -/
theorem machine_advance_split {time later : Nat} (h : machine s (.advance later) = some (s', o))
    (h₁ : s.now < time) (h₂ : time < later) : s.timerThread.runnable = false ∧
      machine s (.advance time) = some ({ s with now := time }, []) ∧
      machine { s with now := time } (.advance later) = some (s', o) := by
  cases machine_move h with
  | advance _ settled _ hno =>
    have hno' := fun since ht => h₂.trans (hno since ht)
    exact ⟨settled.2.1, machine_advance settled h₁ hno',
      machine_advance (settled_advance settled hno') h₂ hno⟩
  | timeout since hs settled =>
    have hno' : ∀ since', s.timerThread = .counting (.tick since') → time < since' + s.tickPeriod := by
      intro since' hs'
      rw [hs] at hs'
      cases hs'
      exact h₂
    exact ⟨settled.2.1, machine_advance settled h₁ hno',
      machine_timeout (s := { s with now := time }) hs (settled_advance settled hno') h₂⟩

/-- The head of the loop reads nothing of the interrupt, nor where the thread comes from. -/
theorem unacked_head (s : Timer) (status flag line next evaluating : Bool) (u : TimerThread) :
    ({ s with
      intrStatus := status
      intrClearInc := flag
      timerint := line
      timerintNext := next
      timerThread := u
      evaluating := evaluating } : Timer).head.unacked = s.head.unacked := by
  unfold head
  dsimp only
  split
  · rfl
  · unfold enabled exClk
    dsimp only
    split
    · rfl
    · unfold unacked restarted
      dsimp only
      split <;> rfl

theorem count_consume (hf : s.intrClearInc = true) :
    s.count = ({ s with intrClearInc := false, timerintNext := false }, []) := if_pos hf

theorem count_of_not_flag (hf : s.intrClearInc = false) : s.count =
    if s.gated then (s, [])
    else if s.valueReg = 0 then
      ({ s with
        valueReg := s.reloadReg
        intrStatus := true
        timerintNext := if s.ctrlReg &&& opsIntrEn ≠ 0 then true else s.timerintNext }, [.counted s.now true])
    else ({ s with valueReg := s.valueReg - 1 }, [.counted s.now false]) := by
  rw [count, hf, if_neg Bool.false_ne_true]

/-- A count with no flag up. -/
theorem unacked_count (hf : s.intrClearInc = false) :
    s.unacked.count.1.head.unacked = s.count.1.head.unacked ∧ s.unacked.count.2 = s.count.2 := by
  have hg : s.unacked.gated = s.gated := rfl
  have hv : s.unacked.valueReg = s.valueReg := rfl
  rw [count_of_not_flag hf, count_of_not_flag (s := s.unacked) rfl, hg, hv]
  split
  · exact ⟨unacked_head s _ _ _ _ _ _, rfl⟩
  split
  · have h := unacked_head { s with valueReg := s.reloadReg }
    exact ⟨(h _ _ _ _ _ _).trans (h _ _ _ _ _ _).symm, rfl⟩
  · exact ⟨unacked_head { s with valueReg := s.valueReg - 1 } _ _ _ _ _ _, rfl⟩

/-- A flag that is taken where nothing is counted, or the timer is about to reset. -/
theorem unacked_consume (hf : s.intrClearInc = true)
    (hok : s.gated = true ∨ s.prstn = false ∧ s.valueReg ≠ 0) :
    s.unacked.count.1.head.unacked = s.count.1.head.unacked ∧
      s.unacked.count.2.filterMap crossing = s.count.2.filterMap crossing := by
  have hg : s.unacked.gated = s.gated := rfl
  have hv : s.unacked.valueReg = s.valueReg := rfl
  rw [count_consume hf, count_of_not_flag (s := s.unacked) rfl, hg, hv]
  split
  · have h := unacked_head s
    exact ⟨(h _ _ _ _ _ _).trans (h _ _ _ _ _ _).symm, rfl⟩
  · rename_i hng
    obtain ⟨hp, h0⟩ := hok.resolve_left hng
    rw [if_neg h0]
    refine ⟨?_, rfl⟩
    -- both sides reset
    unfold head
    dsimp only
    rw [if_pos hp, if_pos (show s.unacked.prstn = false from hp)]
    rfl

theorem head_counting (hp : s.prstn = true) (he : s.enabled = true) :
    s.head = { s with timerThread := .counting (if s.exClk then .clock else .tick s.now) } := by
  rw [head, if_neg (Bool.not_eq_false _ ▸ hp), if_neg (Bool.not_eq_false _ ▸ he)]

/-- The turn that an acknowledgement owes the thread takes it back to its wait. -/
theorem unacked_owed (hw : s.WaitInv) (ht : s.timerThread = .counted .clear) (he : s.enabled = true) :
    s.count.1.head.unacked = s.unacked ∧ s.count.2 = [] := by
  obtain ⟨hp, hf⟩ := hw.clear ht
  rw [count_consume hf]
  refine ⟨?_, rfl⟩
  have hh := head_counting (s := { s with intrClearInc := false, timerintNext := false }) hp he
  have hne : (TimerThread.counting (if s.exClk then .clock else .tick s.now)) ≠ .counted .clear :=
    TimerThread.noConfusion
  rw [hh]
  refine (unacked_of_ne hne).trans ?_
  rw [unacked, restarted, if_pos ht]
  rfl

theorem counter_turn (h : machine s .timerThread = some (s', o)) (hi : s.AckInv)
    (hok : ¬ Disturbs ⟨s, .timerThread, s', o⟩) :
    counter s.unacked .timerThread = some (s'.unacked, o.filterMap crossing) := by
  unfold counter
  cases ht : s.timerThread with
  | start | leftReset | leftDisabled =>
    have hu : s.unacked.timerThread = s.timerThread := restarted_of_ne (by rw [ht]; exact TimerThread.noConfusion)
    have hen : s.timerThread = .start ∨ s.timerThread = .leftReset ∨ s.timerThread = .leftDisabled := by
      simp [ht]
    rw [machine_enter hen] at h
    cases h
    rw [machine_enter (hu ▸ hen)]
    exact congrArg (fun c => some (c, [])) (unacked_head s _ _ _ _ _ _)
  | inReset | disabled | counting =>
    have hu : s.unacked.timerThread = s.timerThread := restarted_of_ne (by rw [ht]; exact TimerThread.noConfusion)
    have hr : s.timerThread.runnable = false := by rw [ht]; rfl
    rw [machine_waiting hr] at h
    cases h
    rw [machine_waiting (hu ▸ hr)]
    exact congrArg (fun c => some (c, [])) (unacked_unacked s)
  | counted c =>
    rw [machine_count ht] at h
    cases h
    by_cases hc : c = .clear
    · subst hc
      obtain ⟨hs, ho⟩ := unacked_owed hi.1 ht (hi.2 ht)
      have hr : s.unacked.timerThread.runnable = false := by
        show s.restarted.runnable = false
        rw [restarted, if_pos ht]
        rfl
      rw [machine_waiting hr, ho]
      exact congrArg (fun c => some (c, [])) ((unacked_unacked s).trans hs.symm)
    · have hu : s.unacked.timerThread = .counted c := by
        show s.restarted = _
        rw [restarted_of_ne (by rw [ht]; exact fun h => hc (TimerThread.counted.inj h)), ht]
      have hs : s.unacked.count.1.head.unacked = s.count.1.head.unacked ∧
          s.unacked.count.2.filterMap crossing = s.count.2.filterMap crossing := by
        cases hf : s.intrClearInc with
        | false =>
          obtain ⟨hs, ho⟩ := unacked_count hf
          exact ⟨hs, by rw [ho]⟩
        | true =>
          refine unacked_consume hf ?_
          by_contra hno
          refine hok (disturbs_turn ht hc hf ?_)
          simpa using hno
      rw [machine_count hu]
      exact congrArg₂ (fun c os => some (c, os)) hs.1 hs.2

theorem delta_ne_clear {u : TimerThread} {p n x : Bool} {period now : Nat} (hr : u.runnable = false) :
    u.delta p n x period now ≠ .counted .clear := by
  rcases TimerThread.waits_of_not_runnable hr with rfl | rfl | ⟨_ | since, rfl⟩ <;>
    simp only [TimerThread.delta] <;> split_ifs <;> simp

/-- The inputs change nothing that an acknowledgement does. -/
theorem unacked_inputs (s : Timer) (prstn extin : Bool) :
    ({ s.unacked with prstnNext := prstn, extinNext := extin, evaluating := true } : Timer).unacked =
      ({ s with prstnNext := prstn, extinNext := extin, evaluating := true } : Timer).unacked := by
  have hu : ({ s.unacked with prstnNext := prstn, extinNext := extin, evaluating := true } : Timer).restarted =
      s.restarted := restarted_of_ne s.restarted_ne_clear
  rw [unacked, hu]
  rfl

theorem counter_delta (hr : s.timerThread.runnable = false) :
    counter s.unacked .delta = some (s.deltaCycle.unacked, []) := by
  have hne := TimerThread.ne_counted hr .clear
  have hu : s.unacked.timerThread = s.timerThread := restarted_of_ne hne
  have hd : s.deltaCycle.timerThread ≠ .counted .clear := delta_ne_clear hr
  rw [counter, machine_delta (hu ▸ hr), Option.map_some, unacked_of_ne hd, unacked_of_ne hne]
  refine congrArg (fun c => some (c, [])) (unacked_of_ne ?_)
  exact hd

theorem settled_unacked (settled : s.Settled) : s.unacked.Settled := by
  have hne := TimerThread.ne_counted settled.2.1 .clear
  obtain ⟨ht, hr, -, hp, hx, -⟩ := settled
  rw [unacked_of_ne hne]
  exact ⟨ht, hr, rfl, hp, hx, rfl⟩

theorem counter_advance {time : Nat} (settled : s.Settled) (later : s.now < time)
    (hno : ∀ since, s.timerThread = .counting (.tick since) → time < since + s.tickPeriod) :
    counter s.unacked (.advance time) = some (({ s with now := time } : Timer).unacked, []) := by
  have hne := TimerThread.ne_counted settled.2.1 .clear
  have hu : s.unacked.timerThread = s.timerThread := restarted_of_ne hne
  rw [counter, machine_advance (settled_unacked settled) later (hu ▸ hno), Option.map_some,
    unacked_of_ne (s := { s with now := time }) hne, unacked_of_ne hne]
  exact congrArg (fun c => some (c, [])) (unacked_of_ne hne)

theorem counter_timeout {since : Nat} (ht : s.timerThread = .counting (.tick since)) (settled : s.Settled)
    (later : s.now < since + s.tickPeriod) : counter s.unacked (.advance (since + s.tickPeriod)) =
      some (({ s with now := since + s.tickPeriod, timerThread := .counted .timeout } : Timer).unacked, []) := by
  have hne := TimerThread.ne_counted settled.2.1 .clear
  have hu : s.unacked.timerThread = s.timerThread := restarted_of_ne hne
  have hm := machine_timeout (hu.trans ht) (settled_unacked settled) later
  rw [counter, show s.tickPeriod = s.unacked.tickPeriod from rfl, hm]
  rfl

/-- A step, seen without the interrupt. -/
theorem counter_step (h : machine s op = some (s', o)) (hop : intStatusWrite op = false) (hi : s.AckInv)
    (hok : ¬ Disturbs ⟨s, op, s', o⟩) : counter s.unacked op = some (s'.unacked, o.filterMap crossing) := by
  cases op with
  | transport t => exact counter_transport h hop hok
  | timerThread => exact counter_turn h hi hok
  | prstn level =>
    cases h
    exact congrArg (fun c => some (c, [])) (unacked_inputs s level s.extinNext)
  | extin level =>
    cases h
    exact congrArg (fun c => some (c, [])) (unacked_inputs s s.prstnNext level)
  | delta =>
    cases machine_move h with
    | delta hr => exact counter_delta hr
  | advance time =>
    cases machine_move h with
    | advance _ settled later hno => exact counter_advance settled later hno
    | timeout since ht settled later => exact counter_timeout ht settled later

namespace AckInv

/-- Where an acknowledgement is owed a turn after a transaction, it was owed one before, or the thread was at its
wait for the next count. -/
theorem bus (h : BusMove s t s' o) (hi : s.AckInv) (hu : Updates t → s.timerThread ≠ .counted .clear)
    (hs : s'.timerThread = .counted .clear) : s'.enabled = true := by
  have update : s.timerThread.notifyUpdate = .counted .clear → s.timerThread = .counted .clear := by
    intro h
    by_contra hne
    exact notifyUpdate_ne_clear hne h
  cases h with
  | quiet | read => exact hi.2 hs
  | ctrl data ht => exact absurd (update hs) (hu ⟨data, .inl ht⟩)
  | value data ht => exact absurd (update hs) (hu ⟨data, .inr (.inl ht)⟩)
  | reload data ht => exact absurd (update hs) (hu ⟨data, .inr (.inr ht)⟩)
  | ack ht =>
    cases h : s.timerThread with
    | counting w => exact (hi.1.counting h).2
    | counted c =>
      rw [h] at hs
      cases hs
      exact hi.2 h
    | start | inReset | leftReset | disabled | leftDisabled =>
      rw [h] at hs
      cases hs

theorem head_ne_clear (h : HeadMove s s') : s'.timerThread ≠ .counted .clear := by
  cases h with
  | reset | disabled | counting => exact TimerThread.noConfusion

theorem step (h : Move s op s' o) (hi : s.AckInv) (hok : ¬ Disturbs ⟨s, op, s', o⟩) : s'.AckInv := by
  refine ⟨hi.1.step h, ?_⟩
  cases h with
  | @bus b _ t h =>
    intro hs
    have he : b.enabled = true := by
      exact bus h hi (fun hu hc => hok (disturbs_update hu hc)) hs
    exact he
  | prstn | extin | waiting => exact hi.2
  | @enter b _ hh => exact fun hs => absurd hs (show b.timerThread ≠ _ from head_ne_clear hh)
  | @count _ b _ c _ _ hh => exact fun hs => absurd hs (show b.timerThread ≠ _ from head_ne_clear hh)
  | delta hr => exact fun hs => absurd hs (delta_ne_clear hr)
  | advance => exact hi.2
  | timeout => exact fun hs => by cases hs

end AckInv

/-! ### Two runs -/

def notIntStatusWrite (op : Op) : Bool := !intStatusWrite op

def crossings (tr : List (Step Timer Op Obs)) : List Nat := tr.flatMap fun e => e.obs.filterMap crossing

/-- A run that no acknowledgement disturbs, seen without the interrupt, is the run without the writes of
INTSTATUS. -/
theorem project_run {period : Nat} {prstn extin : Bool} {is : List Op} {tr : List (Step Timer Op Obs)}
    (h : Run (traced machine) (new period prstn extin) is tr s) (hok : ∀ e ∈ tr, ¬ Disturbs e) :
    Run counter (new period prstn extin).unacked (is.filter notIntStatusWrite) (crossings tr) s.unacked := by
  refine (h.project unacked (·.filterMap crossing) notIntStatusWrite AckInv (fun e => ¬ Disturbs e) hok
    ⟨rfl, fun hs => by cases hs⟩ ?_).2
  intro a op b o hm hok hi
  refine ⟨hi.step (machine_move hm) hok, ?_, ?_⟩
  · intro hop
    exact counter_step hm (by simpa [notIntStatusWrite] using hop) hi hok
  · intro hop
    exact unacked_of_intStatusWrite hm (by simpa [notIntStatusWrite] using hop) hi.1 hok

/-- The moves `is` from `s`, with moves put in that change nothing: a turn of the thread while it waits, a delta
cycle in which nothing happens, a stop on the way of time. -/
inductive Padded : Timer → List Op → List Op → Prop
  | nil (s : Timer) : Padded s [] []
  | move {s a : Timer} {op : Op} {o : List Obs} {is js : List Op} (h : machine s op = some (a, o))
      (hp : Padded a is js) : Padded s (op :: is) (op :: js)
  | turn {s : Timer} {is js : List Op} (h : s.timerThread.runnable = false) (hp : Padded s is js) :
      Padded s is (.timerThread :: js)
  | delta {s : Timer} {is js : List Op} (h : s.Settled) (hp : Padded s is js) : Padded s is (.delta :: js)
  | stop {s : Timer} {time later : Nat} {is js : List Op} (h₁ : s.now < time) (h₂ : time < later)
      (hp : Padded { s with now := time } (.advance later :: is) js) :
      Padded s (.advance later :: is) (.advance time :: js)

/-- The moves from `s` are the same but for the writes of INTSTATUS, and for moves that change nothing. -/
def SameButAcks (s : Timer) (is₁ is₂ : List Op) : Prop :=
  ∃ js₁ js₂, Padded s is₁ js₁ ∧ Padded s is₂ js₂ ∧ js₁.filter notIntStatusWrite = js₂.filter notIntStatusWrite

/-- A run that no acknowledgement disturbs, with its zero crossings. -/
def Undisturbed (s : Timer) (is : List Op) (cs : List Nat) (s' : Timer) : Prop :=
  ∃ tr, exec (traced machine) s is = some (s', tr) ∧ crossings tr = cs ∧ ∀ e ∈ tr, ¬ Disturbs e

theorem undisturbed_cons {is : List Op} {cs : List Nat} {f : Timer} (h : machine s op = some (a, o)) :
    Undisturbed s (op :: is) cs f ↔ ¬ Disturbs ⟨s, op, a, o⟩ ∧
      ∃ cs', cs = o.filterMap crossing ++ cs' ∧ Undisturbed a is cs' f := by
  constructor
  · rintro ⟨tr, hx, rfl, hok⟩
    rw [exec_traced_cons h] at hx
    obtain ⟨⟨g, tr'⟩, hx', heq⟩ := Option.map_eq_some_iff.1 hx
    cases heq
    obtain ⟨hd, hok'⟩ := List.forall_mem_cons.1 hok
    exact ⟨hd, crossings tr', rfl, tr', hx', rfl, hok'⟩
  · rintro ⟨hd, cs', rfl, tr', hx, rfl, hok⟩
    refine ⟨_, ?_, rfl, List.forall_mem_cons.2 ⟨hd, hok⟩⟩
    rw [exec_traced_cons h, hx]
    rfl

namespace Padded

/-- What comes after a run may be padded. -/
theorem refl_append {is is' js : List Op} {r : Timer × List Obs} (h : exec machine s is = some r)
    (hp : Padded r.1 is' js) : Padded s (is ++ is') (is ++ js) := by
  induction is generalizing s r with
  | nil =>
    cases h
    exact hp
  | cons i is ih =>
    unfold exec at h
    split at h
    · cases h
    · rename_i b o hi
      obtain ⟨q, hq, rfl⟩ := Option.map_eq_some_iff.1 h
      exact .move hi (ih hq hp)

theorem refl {is : List Op} {r : Timer × List Obs} (h : exec machine s is = some r) : Padded s is is := by
  simpa using refl_append h (.nil r.1)

/-- Padding leaves the state and the zero crossings, and disturbs nothing. -/
theorem undisturbed {is js : List Op} {cs : List Nat} {f : Timer} (hp : Padded s is js)
    (h : Undisturbed s is cs f) : Undisturbed s js cs f := by
  induction hp generalizing cs with
  | nil => exact h
  | move hm _ ih =>
    obtain ⟨hd, cs', rfl, hr⟩ := (undisturbed_cons hm).1 h
    exact (undisturbed_cons hm).2 ⟨hd, cs', rfl, ih hr⟩
  | turn hr _ ih =>
    exact (undisturbed_cons (machine_waiting hr)).2 ⟨not_disturbs hr (by simp), cs, rfl, ih h⟩
  | delta settled _ ih =>
    have hm := machine_delta settled.2.1
    rw [deltaCycle_settled settled] at hm
    exact (undisturbed_cons hm).2 ⟨not_disturbs settled.2.1 (by simp), cs, rfl, ih h⟩
  | @stop s time later is js h₁ h₂ _ ih =>
    obtain ⟨⟨b, o⟩, hm⟩ : ∃ r, machine s (.advance later) = some r := by
      obtain ⟨tr, hx, -⟩ := h
      refine Option.ne_none_iff_exists'.1 fun hn => ?_
      rw [exec, traced, hn] at hx
      cases hx
    obtain ⟨hr, hstop, hgo⟩ := machine_advance_split hm h₁ h₂
    obtain ⟨-, cs', rfl, hf⟩ := (undisturbed_cons hm).1 h
    refine (undisturbed_cons hstop).2 ⟨not_disturbs hr (by simp), _, rfl, ih ?_⟩
    exact (undisturbed_cons hgo).2 ⟨not_disturbs hr (by simp), cs', rfl, hf⟩

end Padded

/-- Two runs count alike: VALUE is the same where both are settled, and the counter has crossed zero at the same
times. -/
structure CountsAlike (tr₁ tr₂ : List (Step Timer Op Obs)) (s₁ s₂ : Timer) : Prop where
  value : s₁.Settled → s₂.Settled → s₁.valueReg = s₂.valueReg
  crossings : crossings tr₁ = crossings tr₂

end Timer

open Timer

/-- Acknowledging does not disturb counting. Two runs with the same inputs and the same moves of the kernel, but
for their writes of INTSTATUS and for moves that change nothing, count alike, where none of their steps is an
acknowledgement in the middle of a tick, a write of another register between an acknowledgement and the turn it
owes the thread, or a turn that takes the flag of an acknowledgement where it would have counted. -/
theorem timer_ack_counts_alike (period : Nat) (prstn extin : Bool) (is₁ is₂ : List Op)
    (tr₁ tr₂ : List (Step Timer Op Obs)) (s₁ s₂ : Timer)
    (h₁ : Run (traced machine) (new period prstn extin) is₁ tr₁ s₁)
    (h₂ : Run (traced machine) (new period prstn extin) is₂ tr₂ s₂)
    (hsame : SameButAcks (new period prstn extin) is₁ is₂)
    (hok₁ : ∀ e ∈ tr₁, ¬ Disturbs e) (hok₂ : ∀ e ∈ tr₂, ¬ Disturbs e) : CountsAlike tr₁ tr₂ s₁ s₂ := by
  obtain ⟨js₁, js₂, hp₁, hp₂, hsame⟩ := hsame
  obtain ⟨pr₁, hj₁, hc₁, hd₁⟩ := hp₁.undisturbed ⟨tr₁, h₁.exec_eq, rfl, hok₁⟩
  obtain ⟨pr₂, hj₂, hc₂, hd₂⟩ := hp₂.undisturbed ⟨tr₂, h₂.exec_eq, rfl, hok₂⟩
  have hx₁ := (project_run (Run.of_exec hj₁) hd₁).exec_eq
  have hx₂ := (project_run (Run.of_exec hj₂) hd₂).exec_eq
  rw [hsame, hx₂, hc₁, hc₂] at hx₁
  obtain ⟨hs, hc⟩ := Prod.mk.inj (Option.some.inj hx₁)
  have hv : s₂.unacked.valueReg = s₁.unacked.valueReg := congrArg valueReg hs
  exact ⟨fun _ _ => hv.symm, hc.symm⟩

/-- RELOAD is 5, VALUE 0 and ENABLE and INTR_EN are set: the counter crosses zero at the end of the first tick. -/
def crossZero : List Op :=
  [.timerThread, .transport ⟨⟨.write, 0x08, some [5, 0, 0, 0], 4, .incomplete, false⟩, none, 4⟩,
    .transport ⟨⟨.write, 0x04, some [0, 0, 0, 0], 4, .incomplete, false⟩, none, 4⟩,
    .transport ⟨⟨.write, 0x00, some [9, 0, 0, 0], 4, .incomplete, false⟩, none, 4⟩, .timerThread, .delta,
    .advance 20000, .timerThread]

def secondTick : List Op := [.delta, .advance 40000, .timerThread, .delta]

/-- An acknowledgement, and the turn it owes the thread. -/
def ackTurn : List Op :=
  [.transport ⟨⟨.write, 0x0C, some [1, 0, 0, 0], 4, .incomplete, false⟩, none, 4⟩, .timerThread]

theorem sameButAcks_crossZero : SameButAcks (new 20000 true true) (crossZero ++ (ackTurn ++ secondTick))
    (crossZero ++ secondTick) := by
  have hx : (exec machine (new 20000 true true) (crossZero ++ (ackTurn ++ secondTick))).isSome = true := by
    decide +kernel
  have hy : ((exec machine (new 20000 true true) crossZero).bind fun r => (exec machine r.1 secondTick).map
      fun _ => r.1.timerThread.runnable) = some false := by decide +kernel
  obtain ⟨q, hq⟩ := Option.isSome_iff_exists.1 hx
  obtain ⟨r, hr, hy⟩ := Option.bind_eq_some_iff.1 hy
  obtain ⟨f, hf, hrun⟩ := Option.map_eq_some_iff.1 hy
  exact ⟨_, crossZero ++ .timerThread :: secondTick, .refl hq, .refl_append hr (.turn hrun (.refl hf)), rfl⟩

theorem timer_ack_counts_alike_crossZero : ∃ tr₁ tr₂ s₁ s₂,
    Run (traced machine) (new 20000 true true) (crossZero ++ (ackTurn ++ secondTick)) tr₁ s₁ ∧
    Run (traced machine) (new 20000 true true) (crossZero ++ secondTick) tr₂ s₂ ∧ CountsAlike tr₁ tr₂ s₁ s₂ := by
  have hx : ∀ ack ∈ [ackTurn ++ secondTick, secondTick], (exec (traced machine) (new 20000 true true)
      (crossZero ++ ack)).map (fun r => r.2.all fun e => decide (¬ Disturbs e)) = some true := by decide +kernel
  have undisturbed : ∀ ack ∈ [ackTurn ++ secondTick, secondTick], ∃ tr s,
      Run (traced machine) (new 20000 true true) (crossZero ++ ack) tr s ∧ ∀ e ∈ tr, ¬ Disturbs e := by
    intro ack hack
    obtain ⟨⟨s, tr⟩, he, hs⟩ := Option.map_eq_some_iff.1 (hx ack hack)
    exact ⟨tr, s, Run.of_exec he, fun e hmem => of_decide_eq_true (List.all_eq_true.1 hs e hmem)⟩
  obtain ⟨tr₁, s₁, h₁, hok₁⟩ := undisturbed (ackTurn ++ secondTick) (by simp)
  obtain ⟨tr₂, s₂, h₂, hok₂⟩ := undisturbed secondTick (by simp)
  exact ⟨tr₁, tr₂, s₁, s₂, h₁, h₂,
    timer_ack_counts_alike 20000 true true _ _ tr₁ tr₂ s₁ s₂ h₁ h₂ sameButAcks_crossZero hok₁ hok₂⟩

/-- RELOAD is 5 and ENABLE set: the wait for a tick begins. -/
def startTick : List Op :=
  [.timerThread, .transport ⟨⟨.write, 0x08, some [5, 0, 0, 0], 4, .incomplete, false⟩, none, 4⟩,
    .transport ⟨⟨.write, 0x00, some [1, 0, 0, 0], 4, .incomplete, false⟩, none, 4⟩, .timerThread, .delta]

def endTick : List Op := [.advance 20000, .timerThread, .delta]

/-- The acknowledgement comes in the middle of the tick. -/
def ackMidTick : List Op := startTick ++ .advance 10000 :: (ackTurn ++ .delta :: endTick)

theorem sameButAcks_ackMidTick : SameButAcks (new 20000 true true) ackMidTick (startTick ++ endTick) := by
  have hx : (exec machine (new 20000 true true) ackMidTick).isSome = true := by decide +kernel
  have hy : ((exec machine (new 20000 true true) startTick).bind fun r =>
      (exec machine { r.1 with now := 10000 } endTick).map fun _ =>
        decide (r.1.now = 0 ∧ ({ r.1 with now := 10000 } : Timer).Settled)) = some true := by decide +kernel
  obtain ⟨q, hq⟩ := Option.isSome_iff_exists.1 hx
  obtain ⟨r, hr, hy⟩ := Option.bind_eq_some_iff.1 hy
  obtain ⟨f, hf, hs⟩ := Option.map_eq_some_iff.1 hy
  obtain ⟨hnow, settled⟩ := of_decide_eq_true hs
  refine ⟨_, startTick ++ .advance 10000 :: .timerThread :: .delta :: endTick, .refl hq, ?_, rfl⟩
  refine .refl_append hr (.stop ?_ (by decide) (.turn settled.2.1 (.delta settled (.refl hf))))
  rw [hnow]
  exact Nat.zero_lt_succ _

/-- The acknowledgement restarts the tick: at its end VALUE is 5, without the acknowledgement 4. -/
theorem not_countsAlike_ackMidTick : ¬ ∀ (period : Nat) (prstn extin : Bool) (is₁ is₂ : List Op)
    (tr₁ tr₂ : List (Step Timer Op Obs)) (s₁ s₂ : Timer),
    Run (traced machine) (new period prstn extin) is₁ tr₁ s₁ →
    Run (traced machine) (new period prstn extin) is₂ tr₂ s₂ →
    SameButAcks (new period prstn extin) is₁ is₂ → CountsAlike tr₁ tr₂ s₁ s₂ := by
  intro h
  have hx₁ : (exec (traced machine) (new 20000 true true) ackMidTick).map
      (fun r => decide (r.1.Settled ∧ r.1.valueReg = 5)) = some true := by decide +kernel
  have hx₂ : (exec (traced machine) (new 20000 true true) (startTick ++ endTick)).map
      (fun r => decide (r.1.Settled ∧ r.1.valueReg = 4)) = some true := by decide +kernel
  obtain ⟨⟨s₁, tr₁⟩, he₁, hs₁⟩ := Option.map_eq_some_iff.1 hx₁
  obtain ⟨⟨s₂, tr₂⟩, he₂, hs₂⟩ := Option.map_eq_some_iff.1 hx₂
  obtain ⟨hset₁, hv₁⟩ := of_decide_eq_true hs₁
  obtain ⟨hset₂, hv₂⟩ := of_decide_eq_true hs₂
  have halike := h _ _ _ _ _ _ _ _ _ (Run.of_exec he₁) (Run.of_exec he₂) sameButAcks_ackMidTick
  have hv := halike.value hset₁ hset₂
  exact absurd (hv₁.symm.trans (hv.trans hv₂)) (by decide)

end CdcVp
