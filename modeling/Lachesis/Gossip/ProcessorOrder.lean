import Lachesis.Gossip.ProcessorMoves

/-!
The order in which the inserter calls `process`.
-/

namespace Lachesis.Gossip.Dagprocessor

open Dag Datasemaphore Dagordering

variable {World Err : Type}

namespace Observed

def answer? : Observed Err → Option (CheckRes Err)
  | .arrived res => some res
  | _ => none

def call? : Observed Err → Option (CheckRes Err × List EventID)
  | .called res toRequest => some (res, toRequest)
  | _ => none

end Observed

def arrived (h : List (Observed Err)) : List (CheckRes Err) := h.filterMap Observed.answer?

def called (h : List (Observed Err)) : List (CheckRes Err × List EventID) :=
  h.filterMap Observed.call?

def requested (h : List (Observed Err)) : List EventID := (called h).flatMap Prod.snd

def history (b : Nat) (log : List (Nat × Observed Err)) : List (Observed Err) :=
  (log.filter fun x => x.1 = b).map Prod.snd

section Logs

variable (h : List (Observed Err)) (res : CheckRes Err) (toRequest : List EventID)

@[simp] theorem arrived_arrived : arrived (h ++ [.arrived res]) = arrived h ++ [res] := by
  simp [arrived, Observed.answer?]

@[simp] theorem called_arrived : called (h ++ [.arrived res]) = called h := by
  simp [called, Observed.call?]

@[simp] theorem arrived_called : arrived (h ++ [.called res toRequest]) = arrived h := by
  simp [arrived, Observed.answer?]

@[simp] theorem called_called :
    called (h ++ [.called res toRequest]) = called h ++ [(res, toRequest)] := by
  simp [called, Observed.call?]

@[simp] theorem arrived_ended : arrived (h ++ [.ended toRequest]) = arrived h := by
  simp [arrived, Observed.answer?]

@[simp] theorem called_ended : called (h ++ [.ended toRequest]) = called h := by
  simp [called, Observed.call?]

@[simp] theorem requested_arrived : requested (h ++ [.arrived res]) = requested h := by
  simp [requested]

@[simp] theorem requested_called :
    requested (h ++ [.called res toRequest]) = requested h ++ toRequest := by
  simp [requested]

@[simp] theorem requested_ended : requested (h ++ [.ended toRequest]) = requested h := by
  simp [requested]

theorem history_own (b : Nat) : history b (h.map (Prod.mk b)) = h := by
  simp [history, List.filter_map, Function.comp_def]

theorem history_other {b c : Nat} (other : c ≠ b) : history c (h.map (Prod.mk b)) = [] := by
  simp [history, List.filter_map, Function.comp_def, other.symm]

end Logs

namespace View

variable {uncut : Prop} {v w : View Err} {b c : Nat} {h seen : List (Observed Err)}

def Pending (v : View Err) (b : Nat) : Prop := ∀ err, (v.enqueued b).caller ≠ .returned err

def Fresh (v : View Err) (b : Nat) : Prop := v.next ≤ b ∨ Pending v b ∨ b ∈ v.inserterTasks

structure Stored (results : List (Option (CheckRes Err))) (received : List (CheckRes Err))
    (processed n : Nat) : Prop where
  long : results.length = n
  own : ∀ (i : Nat) (res : CheckRes Err), results[i]? = some (some res) →
    res.pos = i ∧ res ∈ received
  kept : ∀ res ∈ received, processed ≤ res.pos → results[res.pos]? = some (some res)

structure Counted (h : List (Observed Err)) (processed : Nat) (toRequest : List EventID) : Prop where
  processed : processed = (called h).length
  toRequest : toRequest = requested h
  running : ∀ r, .ended r ∉ h

def Working (call : EnqueueCall Err) (h : List (Observed Err)) : Inserter Err → Prop
  | .select _ processed results toRequest => Counted h processed toRequest ∧
      if call.batch.ordered then
        ∃ received, arrived h = received ++ call.checkedC ∧
          Stored results received processed call.batch.events.length ∧
          ∀ res ∈ received, res.pos ≠ processed
      else arrived h = (called h).map Prod.fst ++ call.checkedC
  | .handle _ processed _ toRequest res => Counted h processed toRequest ∧
      call.batch.ordered = false ∧ arrived h = (called h).map Prod.fst ++ res :: call.checkedC
  | .flush _ processed results toRequest => Counted h processed toRequest ∧
      call.batch.ordered = true ∧
      ∃ received, arrived h = received ++ call.checkedC ∧
        Stored results received processed call.batch.events.length
  | _ => True

structure InOrder (batch : Batch) (h : List (Observed Err)) : Prop where
  precede : ∀ before res r after, h = before ++ .called res r :: after → res ∈ arrived before
  ordered : batch.ordered = true →
    (called h).map (fun call => call.1.pos) = List.range (called h).length
  unordered : batch.ordered = false → (called h).map Prod.fst <+: arrived h

structure Answers (call : EnqueueCall Err) (answers : List (CheckRes Err)) : Prop where
  answered : call.answered = answers.map CheckRes.pos
  distinct : (answers.map CheckRes.pos).Nodup
  valid : ∀ res ∈ answers, call.batch.events[res.pos]? = some res.e

structure Kept (v : View Err) (b : Nat) (h : List (Observed Err)) : Prop where
  answers : Answers (v.enqueued b) (arrived h)
  fresh : Fresh v b → called h = [] ∧ (∀ r, .ended r ∉ h) ∧
    (v.enqueued b).checkedC = arrived h
  order : InOrder (v.enqueued b).batch h
  working : v.inserter.batch = some b → Working (v.enqueued b) h v.inserter
  complete : ∀ r, .ended r ∈ h → (called h).length = (v.events b).length ∧ r = requested h

structure Queue (v : View Err) : Prop where
  nodup : v.inserterTasks.Nodup
  queued : ∀ b ∈ v.inserterTasks, b < v.next ∧ ¬ Pending v b
  current : ∀ b, v.inserter.batch = some b → ¬ Fresh v b
  unused : ∀ b, v.next ≤ b → v.events b = [] ∧ ¬ Pending v b

section History

theorem mem_of_called {call : CheckRes Err × List EventID} (member : call ∈ called h) :
    ∃ before after, h = before ++ .called call.1 call.2 :: after := by
  obtain ⟨x, at_, eq⟩ := List.mem_filterMap.mp member
  cases x with
  | called res toRequest =>
    cases eq
    exact List.append_of_mem at_
  | arrived => cases eq
  | ended => cases eq

theorem arrived_append (before after : List (Observed Err)) :
    arrived (before ++ after) = arrived before ++ arrived after := List.filterMap_append

variable {batch : Batch} {x : Observed Err} {res : CheckRes Err}

theorem InOrder.answered (order : InOrder batch h) {call : CheckRes Err × List EventID}
    (member : call ∈ called h) : call.1 ∈ arrived h := by
  obtain ⟨before, after, eq⟩ := mem_of_called member
  rw [eq, arrived_append]
  exact List.mem_append_left _ (order.precede _ _ _ _ eq)

theorem InOrder.precede_append (order : InOrder batch h)
    (last : ∀ res r, x = .called res r → res ∈ arrived h) (before : List (Observed Err))
    (res : CheckRes Err) (r : List EventID) (after : List (Observed Err))
    (eq : h ++ [x] = before ++ .called res r :: after) : res ∈ arrived before := by
  rcases List.eq_nil_or_concat after with rfl | ⟨rest, end', rfl⟩
  · rw [← List.append_inj_left' eq rfl]
    exact last res r (List.cons.inj (List.append_inj_right' eq rfl)).1
  · rw [List.concat_eq_append, ← List.cons_append, ← List.append_assoc] at eq
    exact order.precede before res r rest (List.append_inj_left' eq rfl)

theorem InOrder.append (order : InOrder batch h) (silent : ∀ res r, x ≠ .called res r) :
    InOrder batch (h ++ [x]) := by
  have calls : called (h ++ [x]) = called h := by
    cases x with
    | called res r => exact absurd rfl (silent res r)
    | arrived => simp
    | ended => simp
  constructor
  · exact order.precede_append fun res r eq => absurd eq (silent res r)
  · rw [calls]
    exact order.ordered
  · intro unordered
    rw [calls, arrived_append]
    exact (order.unordered unordered).trans (List.prefix_append _ _)

theorem InOrder.call (order : InOrder batch h) (more : List EventID) (known : res ∈ arrived h)
    (next : batch.ordered = true → res.pos = (called h).length)
    (first : batch.ordered = false → (called h).map Prod.fst ++ [res] <+: arrived h) :
    InOrder batch (h ++ [.called res more]) := by
  constructor
  · apply order.precede_append
    intro res' r eq
    cases eq
    exact known
  · intro ordered
    rw [called_called, List.map_append, order.ordered ordered, List.length_append]
    simp [List.range_succ, next ordered]
  · simp_all

theorem Kept.within (kept : Kept v b h) (member : res ∈ arrived h) :
    res.pos < (v.events b).length :=
  (List.getElem?_eq_some_iff.mp (kept.answers.valid res member)).1

theorem Kept.called_within (kept : Kept v b h) :
    ∀ pos ∈ (called h).map (fun call => call.1.pos), pos < (v.events b).length := by
  intro pos member
  obtain ⟨call, at_, rfl⟩ := List.mem_map.mp member
  exact kept.within (kept.order.answered at_)

theorem Kept.called_nodup (kept : Kept v b h) :
    ((called h).map fun call => call.1.pos).Nodup := by
  cases ordered : (v.enqueued b).batch.ordered with
  | true =>
    rw [kept.order.ordered ordered]
    exact List.nodup_range
  | false =>
    have sub := (kept.order.unordered ordered).sublist.map CheckRes.pos
    rw [List.map_map] at sub
    exact kept.answers.distinct.sublist sub

theorem perm_range {l : List Nat} {n : Nat} (nodup : l.Nodup) (below : ∀ i ∈ l, i < n) :
    l.length ≤ n ∧ (n ≤ l.length → l.Perm (List.range n)) := by
  have sub : l ⊆ List.range n := fun i member => List.mem_range.mpr (below i member)
  constructor
  · simpa using (nodup.subperm sub).length_le
  · intro long
    exact (nodup.subperm sub).perm_of_length_le (by simpa using long)

theorem Kept.called_le (kept : Kept v b h) : (called h).length ≤ (v.events b).length := by
  have bound := (perm_range kept.called_nodup kept.called_within).1
  rwa [List.length_map] at bound

end History

section Moves

variable {call' : EnqueueCall Err}

theorem Turn.same (turn : Turn uncut v b call') :
    call'.batch = (v.enqueued b).batch ∧ call'.answered = (v.enqueued b).answered ∧
    call'.checkedC = (v.enqueued b).checkedC := by
  cases turn <;> exact ⟨rfl, rfl, rfl⟩

theorem Turn.pending (turn : Turn uncut v b call') (pending : ∀ err, call'.caller ≠ .returned err) :
    Pending v b := by
  intro err returned
  cases turn with
  | ask n => exact pending err returned
  | acquire known at_ => cases at_.symm.trans returned
  | refuse known at_ => cases at_.symm.trans returned
  | check at_ => cases at_.symm.trans returned
  | quit at_ => rcases at_ with at_ | at_ <;> cases at_.symm.trans returned

theorem Move.other (move : Move uncut v b seen w) (other : c ≠ b) :
    w.enqueued c = v.enqueued c ∧ (w.inserter.batch = some c → w.inserter = v.inserter) := by
  cases move with
  | stay => exact ⟨rfl, fun _ => rfl⟩
  | turn turn => exact ⟨call_other other _, fun _ => rfl⟩
  | enqueue batch => exact ⟨call_other other _, fun _ => rfl⟩
  | handOver at_ => exact ⟨call_other other _, fun _ => rfl⟩
  | deliver res event fresh => exact ⟨call_other other _, fun _ => rfl⟩
  | skip at_ queue => exact ⟨call_other other _, fun _ => rfl⟩
  | receive at_ queue =>
    refine ⟨call_other other _, fun here => ?_⟩
    dsimp only at here
    split at here <;> exact absurd (Option.some.inj here).symm other
  | drain at_ queue new =>
    exact ⟨call_other other _, fun here => absurd (Option.some.inj here).symm other⟩
  | drained at_ => exact ⟨rfl, fun here => nomatch here⟩
  | exit b idle calm => exact ⟨rfl, fun here => nomatch here⟩
  | finish at_ all => exact ⟨rfl, fun here => nomatch here⟩
  | _ => exact ⟨rfl, fun here => absurd (Option.some.inj here).symm other⟩

theorem Move.keeps (move : Move uncut v b seen w) (next : w.next = v.next) (c : Nat) :
    (w.enqueued c).batch = (v.enqueued c).batch ∧ (Pending w c → Pending v c) := by
  by_cases own : c = b
  · subst own
    cases move with
    | turn turn =>
      rw [Pending, call_own]
      exact ⟨turn.same.1, turn.pending⟩
    | enqueue batch => exact absurd next (Nat.succ_ne_self _)
    | handOver at_ =>
      refine ⟨by simp, fun pending => absurd ?_ (pending none)⟩
      simp
    | deliver res event fresh => simp [Pending]
    | receive at_ queue => simp [Pending]
    | skip at_ queue => simp [Pending]
    | drain at_ queue new => simp [Pending]
    | _ => exact ⟨rfl, id⟩
  · rw [Pending, Pending, (move.other own).1]
    exact ⟨rfl, id⟩

theorem Move.fresh (move : Move uncut v b seen w) (fresh : Fresh w c) : Fresh v c := by
  have known := move
  cases move with
  | enqueue batch =>
    by_cases own : c = v.next
    · exact .inl own.ge
    · rw [Fresh, Pending, (known.other own).1] at fresh
      exact fresh.imp_left Nat.le_of_succ_le
  | handOver at_ =>
    rcases fresh with beyond | still | queued
    · exact .inl beyond
    · exact .inr (.inl ((known.keeps rfl c).2 still))
    · rcases List.mem_append.mp queued with before | last
      · exact .inr (.inr before)
      · rw [List.mem_singleton.mp last]
        exact .inr (.inl fun err returned => by cases at_.symm.trans returned)
  | take idle tasks =>
    refine fresh.imp_right (.imp_right fun queued => ?_)
    rw [tasks]
    exact List.mem_cons_of_mem _ queued
  | _ => exact fresh.imp_right (.imp_left (known.keeps rfl c).2)

theorem Queue.keep (queue : Queue v) (move : Move uncut v b seen w) (next : w.next = v.next)
    (tasks : w.inserterTasks = v.inserterTasks)
    (inserter : ∀ c, w.inserter.batch = some c → v.inserter.batch = some c) : Queue w := by
  constructor
  · rw [tasks]
    exact queue.nodup
  · intro c queued
    rw [tasks] at queued
    rw [next]
    exact (queue.queued c queued).imp_right (mt (move.keeps next c).2)
  · intro c here fresh
    exact queue.current c (inserter c here) (move.fresh fresh)
  · intro c beyond
    rw [next] at beyond
    rw [events, (move.keeps next c).1]
    exact (queue.unused c beyond).imp_right (mt (move.keeps next c).2)

theorem Queue.move (queue : Queue v) (move : Move uncut v b seen w) : Queue w := by
  have known := move
  cases move with
  | enqueue batch =>
    constructor
    · exact queue.nodup
    · intro c queued
      obtain ⟨within, done⟩ := queue.queued c queued
      rw [Pending, (known.other within.ne).1]
      exact ⟨Nat.lt_succ_of_lt within, done⟩
    · intro c here fresh
      exact queue.current c here (known.fresh fresh)
    · intro c beyond
      rw [events, Pending, (known.other (Nat.lt_of_succ_le beyond).ne').1]
      exact queue.unused c (Nat.le_of_succ_le beyond)
  | handOver at_ =>
    have pending : Pending v b := fun err returned => by cases at_.symm.trans returned
    constructor
    · refine List.nodup_append.mpr ⟨queue.nodup, List.nodup_singleton b, ?_⟩
      rintro c queued _ last rfl
      exact (queue.queued b (List.mem_singleton.mp last ▸ queued)).2 pending
    · intro c queued
      rcases List.mem_append.mp queued with before | last
      · exact (queue.queued c before).imp_right (mt (known.keeps rfl c).2)
      · rw [List.mem_singleton.mp last]
        refine ⟨Nat.lt_of_not_le fun beyond => (queue.unused b beyond).2 pending, fun still => ?_⟩
        exact still none (by simp)
    · intro c here fresh
      exact queue.current c here (known.fresh fresh)
    · intro c beyond
      rw [events, (known.keeps rfl c).1]
      exact (queue.unused c beyond).imp_right (mt (known.keeps rfl c).2)
  | take idle tasks =>
    have nodup := queue.nodup
    rw [tasks, List.nodup_cons] at nodup
    obtain ⟨within, done⟩ := queue.queued b (by simp [tasks])
    constructor
    · exact nodup.2
    · intro c queued
      exact queue.queued c (by simp [tasks, queued])
    · intro c here
      cases here
      rintro (beyond | pending | queued)
      · exact absurd within (Nat.not_lt.mpr beyond)
      · exact done pending
      · exact nodup.1 queued
    · exact queue.unused
  | stay => exact queue
  | turn turn => exact queue.keep known rfl rfl fun _ => id
  | deliver res event fresh => exact queue.keep known rfl rfl fun _ => id
  | skip at_ rest => exact queue.keep known rfl rfl fun _ => id
  | receive at_ rest =>
    refine queue.keep known rfl rfl fun c here => ?_
    rw [at_]
    dsimp only at here
    split at here <;> exact here
  | drained at_ => exact queue.keep known rfl rfl fun c here => nomatch here
  | exit b idle calm => exact queue.keep known rfl rfl fun c here => nomatch here
  | finish at_ all => exact queue.keep known rfl rfl fun c here => nomatch here
  | handle more at_ => exact queue.keep known rfl rfl fun c here => by rw [at_]; exact here
  | flush more at_ slot => exact queue.keep known rfl rfl fun c here => by rw [at_]; exact here
  | settle at_ gap => exact queue.keep known rfl rfl fun c here => by rw [at_]; exact here
  | quit at_ calm => exact queue.keep known rfl rfl fun c here => by rw [at_]; exact here
  | drain at_ rest new => exact queue.keep known rfl rfl fun c here => by rw [at_]; exact here

end Moves

section Kept

variable {processed : Nat} {results : List (Option (CheckRes Err))} {received : List (CheckRes Err)}
  {toRequest more : List EventID} {res : CheckRes Err}

theorem Kept.carry (kept : Kept v b h) (batch : (w.enqueued b).batch = (v.enqueued b).batch)
    (answered : (w.enqueued b).answered = (v.enqueued b).answered)
    (fresh : Fresh w b → Fresh v b ∧ (w.enqueued b).checkedC = (v.enqueued b).checkedC)
    (working : w.inserter.batch = some b → Working (w.enqueued b) h w.inserter) : Kept w b h where
  answers := by
    refine ⟨answered.trans kept.answers.answered, kept.answers.distinct, ?_⟩
    rw [batch]
    exact kept.answers.valid
  fresh now := by
    rw [(fresh now).2]
    exact kept.fresh (fresh now).1
  order := batch ▸ kept.order
  working := working
  complete := by
    rw [events, batch]
    exact kept.complete

theorem Kept.other (kept : Kept v c h) (move : Move uncut v b seen w) (other : c ≠ b) :
    Kept w c h := by
  obtain ⟨call, inserter⟩ := move.other other
  apply kept.carry (congrArg _ call) (congrArg _ call)
  · intro now
    exact ⟨move.fresh now, congrArg _ call⟩
  · intro here
    rw [call, inserter here]
    exact kept.working (inserter here ▸ here)

variable {inserter : Inserter Err} {n : Nat}

theorem Working.congr {call call' : EnqueueCall Err} (working : Working call h inserter)
    (batch : call'.batch = call.batch) (checkedC : call'.checkedC = call.checkedC) :
    Working call' h inserter := by
  cases inserter with
  | idle => trivial
  | drain => trivial
  | stopped => trivial
  | _ => simpa only [Working, batch, checkedC] using working

theorem Kept.caller (kept : Kept v b h) (move : Move uncut v b [] w)
    (batch : (w.enqueued b).batch = (v.enqueued b).batch)
    (answered : (w.enqueued b).answered = (v.enqueued b).answered)
    (checkedC : (w.enqueued b).checkedC = (v.enqueued b).checkedC)
    (inserter : w.inserter = v.inserter) : Kept w b h := by
  apply kept.carry batch answered
  · intro now
    exact ⟨move.fresh now, checkedC⟩
  · intro here
    rw [inserter] at here ⊢
    exact (kept.working here).congr batch checkedC

theorem Kept.enqueue (kept : Kept v v.next h) (queue : Queue v) (batch : Batch) :
    Kept { v.call v.next ⟨batch, .acquire, false, 0, [], []⟩ with next := v.next + 1 } v.next h := by
  have nothing : arrived h = [] := by
    apply List.eq_nil_iff_forall_not_mem.mpr
    intro res member
    have within := kept.within member
    rw [(queue.unused v.next le_rfl).1] at within
    cases within
  obtain ⟨silent, running, _⟩ := kept.fresh (.inl le_rfl)
  constructor
  · rw [nothing, call_own]
    exact ⟨rfl, List.nodup_nil, by simp⟩
  · intro _
    exact ⟨silent, running, by simp [nothing]⟩
  · exact ⟨kept.order.precede, fun _ => by simp [silent], fun _ => by simp [silent]⟩
  · intro here
    exact absurd (.inl le_rfl) (queue.current _ here)
  · intro r ended
    exact absurd ended (running r)

theorem Counted.arrived (counted : Counted h processed toRequest) (res : CheckRes Err) :
    Counted (h ++ [.arrived res]) processed toRequest where
  processed := by simpa using counted.processed
  toRequest := by simpa using counted.toRequest
  running r := by simpa using counted.running r

theorem Counted.called (counted : Counted h processed toRequest) (res : CheckRes Err)
    (more : List EventID) : Counted (h ++ [.called res more]) (processed + 1) (toRequest ++ more) where
  processed := by simp [counted.processed]
  toRequest := by simp [counted.toRequest]
  running r := by simpa using counted.running r

theorem Working.deliver {call : EnqueueCall Err} (working : Working call h inserter)
    (res : CheckRes Err) (answered : List Nat) :
    Working { call with answered := answered, checkedC := call.checkedC ++ [res] }
      (h ++ [.arrived res]) inserter := by
  cases inserter with
  | select c processed results toRequest =>
    refine ⟨working.1.arrived res, ?_⟩
    have state := working.2
    dsimp only
    split at state
    · next ordered =>
      obtain ⟨received, eq, stored, gap⟩ := state
      rw [if_pos ordered]
      exact ⟨received, by simp [eq], stored, gap⟩
    · next unordered =>
      rw [if_neg unordered]
      simp [state]
  | handle c processed results toRequest first =>
    exact ⟨working.1.arrived res, working.2.1, by simp [working.2.2]⟩
  | flush c processed results toRequest =>
    obtain ⟨counted, ordered, received, eq, stored⟩ := working
    exact ⟨counted.arrived res, ordered, received, by simp [eq], stored⟩
  | idle => trivial
  | drain => trivial
  | stopped => trivial

theorem Kept.deliver (kept : Kept v b h) (event : (v.events b)[res.pos]? = some res.e)
    (new : res.pos ∉ (v.enqueued b).answered)
    (move : Move uncut v b seen (v.call b { v.enqueued b with
      answered := (v.enqueued b).answered ++ [res.pos]
      checkedC := (v.enqueued b).checkedC ++ [res] })) :
    Kept (v.call b { v.enqueued b with
      answered := (v.enqueued b).answered ++ [res.pos]
      checkedC := (v.enqueued b).checkedC ++ [res] }) b (h ++ [.arrived res]) := by
  constructor
  · rw [arrived_arrived, call_own]
    constructor
    · simp [kept.answers.answered]
    · rw [kept.answers.answered] at new
      rw [List.map_append, List.nodup_append]
      refine ⟨kept.answers.distinct, List.nodup_singleton _, ?_⟩
      rintro pos old _ last rfl
      rw [List.map_singleton, List.mem_singleton] at last
      exact new (last ▸ old)
    · intro other member
      rcases List.mem_append.mp member with old | last
      · exact kept.answers.valid other old
      · rw [List.mem_singleton.mp last]
        exact event
  · intro fresh
    obtain ⟨silent, running, checkedC⟩ := kept.fresh (move.fresh fresh)
    refine ⟨by simpa using silent, fun r => by simpa using running r, ?_⟩
    simp [checkedC]
  · rw [call_own]
    exact kept.order.append (fun _ _ eq => nomatch eq)
  · intro here
    rw [call_own]
    exact (kept.working here).deliver res _
  · intro r ended
    rw [List.mem_append] at ended
    rw [events, call_own, called_arrived, requested_arrived]
    exact kept.complete r (ended.resolve_right (by simp))

theorem stored_replicate (n : Nat) :
    Stored (List.replicate n (none : Option (CheckRes Err))) [] 0 n where
  long := List.length_replicate
  own i res slot := by
    rw [List.getElem?_replicate] at slot
    split at slot <;> cases slot
  kept res member := nomatch member

theorem Stored.receive (stored : Stored results received processed n) (within : res.pos < n)
    (new : ∀ other ∈ received, other.pos ≠ res.pos) :
    Stored (results.set res.pos (some res)) (received ++ [res]) processed n where
  long := by rw [List.length_set, stored.long]
  own i other slot := by
    by_cases same : res.pos = i
    · grind
    · rw [List.getElem?_set_ne same] at slot
      exact (stored.own i other slot).imp_right (List.mem_append_left _)
  kept other member later := by
    rcases List.mem_append.mp member with old | last
    · rw [List.getElem?_set_ne (new other old).symm]
      exact stored.kept other old later
    · cases List.mem_singleton.mp last
      exact List.getElem?_set_self (stored.long ▸ within)

theorem Stored.clear (stored : Stored results received processed n) :
    Stored (results.set processed none) received (processed + 1) n where
  long := by rw [List.length_set, stored.long]
  own i other slot := by
    by_cases same : processed = i
    · grind
    · rw [List.getElem?_set_ne same] at slot
      exact stored.own i other slot
  kept other member later := by
    rw [List.getElem?_set_ne (Nat.lt_of_succ_le later).ne]
    exact stored.kept other member (Nat.le_of_succ_le later)

theorem Kept.take (kept : Kept v b h) (fresh : Fresh v b) : Working (v.enqueued b) h
    (.select b 0 (if (v.enqueued b).batch.ordered then
      List.replicate (v.events b).length none else []) []) := by
  obtain ⟨silent, running, checkedC⟩ := kept.fresh fresh
  refine ⟨⟨by simp [silent], by simp [requested, silent], running⟩, ?_⟩
  cases ordered : (v.enqueued b).batch.ordered with
  | true =>
    rw [if_pos rfl]
    refine ⟨[], by simp [checkedC], ?_, fun _ member => nomatch member⟩
    rw [if_pos rfl]
    exact stored_replicate _
  | false => simp [silent, checkedC]

theorem Kept.receive (kept : Kept v b h) (at_ : v.inserter = .select b processed results toRequest)
    {rest : List (CheckRes Err)} (channel : (v.enqueued b).checkedC = res :: rest) :
    Working { v.enqueued b with checkedC := rest } h (if (v.enqueued b).batch.ordered then
      .flush b processed (results.set res.pos (some res)) toRequest
      else .handle b processed results toRequest res) := by
  have working := kept.working (congrArg Inserter.batch at_)
  rw [at_] at working
  obtain ⟨counted, state⟩ := working
  cases ordered : (v.enqueued b).batch.ordered with
  | true =>
    rw [if_pos ordered] at state
    rw [if_pos rfl]
    obtain ⟨received, eq, stored, _⟩ := state
    rw [channel] at eq
    refine ⟨counted, ordered, received ++ [res], by simp [eq], stored.receive ?_ ?_⟩
    · exact kept.within (by simp [eq])
    · -- the answers in the list are for different events
      have distinct := kept.answers.distinct
      rw [eq, List.map_append, List.map_cons, List.nodup_append] at distinct
      intro other member same
      exact distinct.2.2 _ (List.mem_map_of_mem member) _ List.mem_cons_self same
  | false =>
    rw [if_neg (by simp [ordered])] at state
    rw [if_neg (by simp)]
    exact ⟨counted, ordered, by rw [state, channel]⟩

theorem Kept.turn (kept : Kept v b h) (batch : (w.enqueued b).batch = (v.enqueued b).batch)
    (answered : (w.enqueued b).answered = (v.enqueued b).answered) (gone : ¬ Fresh w b)
    (working : w.inserter.batch = some b → Working (w.enqueued b) h w.inserter) : Kept w b h :=
  kept.carry batch answered (fun now => absurd now gone) working

theorem Kept.observe (kept : Kept v b h) {x : Observed Err} (call : w.enqueued b = v.enqueued b)
    (gone : ¬ Fresh w b) (silent : arrived (h ++ [x]) = arrived h)
    (order : InOrder (v.enqueued b).batch (h ++ [x]))
    (working : w.inserter.batch = some b → Working (v.enqueued b) (h ++ [x]) w.inserter)
    (complete : ∀ r, .ended r ∈ h ++ [x] → (called (h ++ [x])).length = (v.events b).length ∧
      r = requested (h ++ [x])) : Kept w b (h ++ [x]) := by
  constructor
  · rw [call, silent]
    exact kept.answers
  · intro now
    exact absurd now gone
  · rw [call]
    exact order
  · rw [call]
    exact working
  · rw [events, call]
    exact complete

theorem Counted.complete (counted : Counted h processed toRequest) (r : List EventID)
    {p : Prop} (ended : .ended r ∈ h ++ [.called res more]) : p := by
  rw [List.mem_append] at ended
  exact absurd (ended.resolve_right (by simp)) (counted.running r)

theorem Kept.handle (kept : Kept v b h)
    (at_ : v.inserter = .handle b processed results toRequest res)
    (call : w.enqueued b = v.enqueued b) (gone : ¬ Fresh w b)
    (inserter : w.inserter = .select b (processed + 1) results (toRequest ++ more)) :
    Kept w b (h ++ [.called res more]) := by
  have working := kept.working (congrArg Inserter.batch at_)
  rw [at_] at working
  obtain ⟨counted, unordered, eq⟩ := working
  apply kept.observe call gone (arrived_called ..) _ _ fun r ended => counted.complete r ended
  · apply kept.order.call more (by simp [eq])
    · intro ordered
      cases unordered.symm.trans ordered
    · intro _
      rw [eq]
      exact ⟨(v.enqueued b).checkedC, by simp⟩
  · intro _
    rw [inserter]
    refine ⟨counted.called res more, ?_⟩
    simp [unordered, eq]

theorem Kept.flush (kept : Kept v b h)
    (at_ : v.inserter = .flush b processed results toRequest)
    (slot : results[processed]? = some (some res))
    (call : w.enqueued b = v.enqueued b) (gone : ¬ Fresh w b)
    (inserter : w.inserter =
      .flush b (processed + 1) (results.set processed none) (toRequest ++ more)) :
    Kept w b (h ++ [.called res more]) := by
  have working := kept.working (congrArg Inserter.batch at_)
  rw [at_] at working
  obtain ⟨counted, ordered, received, eq, stored⟩ := working
  obtain ⟨pos, member⟩ := stored.own processed res slot
  apply kept.observe call gone (arrived_called ..) _ _ fun r ended => counted.complete r ended
  · apply kept.order.call more (by simp [eq, member])
    · intro _
      exact pos.trans counted.processed
    · intro unordered
      cases ordered.symm.trans unordered
  · intro _
    rw [inserter]
    exact ⟨counted.called res more, ordered, received, by simp [eq], stored.clear⟩

theorem Kept.settle (kept : Kept v b h)
    (at_ : v.inserter = .flush b processed results toRequest)
    (gap : ∀ res, results[processed]? ≠ some (some res)) :
    Working (v.enqueued b) h (.select b processed results toRequest) := by
  have working := kept.working (congrArg Inserter.batch at_)
  rw [at_] at working
  obtain ⟨counted, ordered, received, eq, stored⟩ := working
  refine ⟨counted, ?_⟩
  rw [if_pos ordered]
  refine ⟨received, eq, stored, ?_⟩
  intro res member pos
  exact gap res (pos ▸ stored.kept res member pos.ge)

theorem Kept.finish (kept : Kept v b h) (at_ : v.inserter = .select b processed results toRequest)
    (all : (v.events b).length ≤ processed) (call : w.enqueued b = v.enqueued b)
    (gone : ¬ Fresh w b) (inserter : w.inserter = .idle) : Kept w b (h ++ [.ended toRequest]) := by
  have working := kept.working (congrArg Inserter.batch at_)
  rw [at_] at working
  have counted := working.1
  apply kept.observe call gone (arrived_ended ..) (kept.order.append fun _ _ eq => nomatch eq)
  · intro still
    rw [inserter] at still
    cases still
  · intro r ended
    rw [List.mem_append, List.mem_singleton] at ended
    rcases ended with before | last
    · exact absurd before (counted.running r)
    · cases last
      rw [called_ended, requested_ended]
      exact ⟨le_antisymm kept.called_le (counted.processed ▸ all), counted.toRequest⟩

theorem Kept.silent (queue : Queue v) (move : Move uncut v b [] w) (kept : Kept v b h) :
    Kept w b h := by
  have known := move
  have gone : v.inserter.batch = some b → ¬ Fresh w b := fun here now =>
    queue.current b here (move.fresh now)
  cases move with
  | stay => exact kept
  | turn turn =>
    obtain ⟨batch, answered, checkedC⟩ := turn.same
    exact kept.caller known (by simpa) (by simpa) (by simpa) rfl
  | enqueue batch => exact kept.enqueue queue batch
  | handOver at_ => exact kept.caller known (by simp) (by simp) (by simp) rfl
  | take idle tasks =>
    exact kept.turn rfl rfl ((queue.move known).current b rfl) fun _ =>
      kept.take (.inr (.inr (by simp [tasks])))
  | receive at_ channel =>
    refine kept.turn (by simp) (by simp) (gone (congrArg Inserter.batch at_)) fun _ => ?_
    dsimp only
    rw [call_own]
    exact kept.receive at_ channel
  | settle at_ gap =>
    exact kept.turn rfl rfl (gone (congrArg Inserter.batch at_)) fun _ => kept.settle at_ gap
  | quit at_ calm =>
    exact kept.turn rfl rfl (gone (congrArg Inserter.batch at_)) fun _ => trivial
  | skip at_ channel =>
    refine kept.turn (by simp) (by simp) (gone (congrArg Inserter.batch at_)) fun _ => ?_
    change Working _ _ v.inserter
    rw [at_]
    trivial
  | drain at_ channel new =>
    exact kept.turn (by simp) (by simp) (gone (congrArg Inserter.batch at_)) fun _ => trivial
  | drained at_ =>
    exact kept.turn rfl rfl (gone (congrArg Inserter.batch at_)) fun here => nomatch here
  | exit b idle calm =>
    exact kept.carry rfl rfl (fun now => ⟨known.fresh now, rfl⟩) fun here => nomatch here

theorem Kept.move (queue : Queue v) (move : Move uncut v b seen w) (kept : Kept v c h) :
    Kept w c (h ++ history c (seen.map (Prod.mk b))) := by
  by_cases own : c = b
  · subst own
    rw [history_own]
    have known := move
    have gone : v.inserter.batch = some c → ¬ Fresh w c := fun here now =>
      queue.current c here (move.fresh now)
    cases move with
    | deliver res event new => exact kept.deliver event new known
    | handle more at_ => exact kept.handle at_ rfl (gone (congrArg Inserter.batch at_)) rfl
    | flush more at_ slot => exact kept.flush at_ slot rfl (gone (congrArg Inserter.batch at_)) rfl
    | finish at_ all => exact kept.finish at_ all rfl (gone (congrArg Inserter.batch at_)) rfl
    | _ =>
      rw [List.append_nil]
      exact kept.silent queue known
  · rw [history_other _ own, List.append_nil]
    exact kept.other move own

end Kept

end View

namespace Processor

open View

variable {cfg : Config} {callback : Callback World Err} {s t : Processor World Err}

variable {a : Action Err}

structure Logged (s : Processor World Err) (log : List (Nat × Observed Err)) : Prop where
  queue : Queue s.view
  kept : ∀ b, Kept s.view b (history b log)
  announced : ∀ b req, (b, req) ∈ s.announced → .ended req ∈ history b log

section Sample

def sampleConfig : Config := ⟨⟨10, 10⟩, 10⟩

end Sample

end Processor

end Lachesis.Gossip.Dagprocessor
