import Armour.Host.Actor
import Armour.Host.RestApi
import Armour.Lib.Machine

/-! # Commands of an on-boarding request

The commands that `on_board` sends to the host, which passes them on to the proxies that they
select.  A command that selects none is tried once more after a second.  Meanwhile proxies connect
and register.
-/

namespace Armour.Host.Commands

open Armour.Lib Armour.Lang Armour.Api

/-- Commands are numbered in the order in which they are sent.  `todo` is what the request has
still to send, `queue` are the commands that are to be tried once more, and `delivered` is what
each instance was sent. -/
structure State where
  host : ArmourDataHost
  todo : List Message
  issued : List PolicyCommand
  queue : List (Nat × PolicyCommand)
  delivered : Nat → List (Nat × PolicyRequest)

inductive Event where
  /-- The next message of the request is handled; a process may be started for a `Launch`. -/
  | send (spawned : Option UInt32)
  /-- The delay of a command in the queue is over. -/
  | retry (k : Nat)
  /-- A proxy connects. -/
  | connect
  /-- A proxy tells what it is. -/
  | register (id : Nat) (info : Meta)

namespace State

def start (host : ArmourDataHost) (messages : List Message) : State :=
  ⟨host, messages, [], [], fun _ => []⟩

/-- `Handler<PolicyCommand>` -/
def attempt (s : State) (n : Nat) (c : PolicyCommand) : State :=
  if (s.host.getInstances c.instances).isEmpty then
    if c.retry then { s with queue := s.queue ++ [(n, c.secondAttempt)] } else s
  else { s with delivered := fun id =>
    if s.host.selects c.instances id then s.delivered id ++ [(n, c.request)] else s.delivered id }

/-- What a message of the request does. -/
def onMessage (s : State) (spawned : Option UInt32) : Message → State
  | .launch msg =>
      match s.host.launches msg, spawned with
      | true, some pid => { s with host := s.host.addChild pid }
      | _, _ => s
  | .command c => { s with issued := s.issued ++ [c] }.attempt s.issued.length c

def step (s : State) : Event → Option State
  | .send spawned =>
      match s.todo with
      | [] => none
      | message :: rest => some ({ s with todo := rest }.onMessage spawned message)
  | .retry k =>
      (s.queue[k]?).map (fun c => { s with queue := s.queue.eraseIdx k }.attempt c.1 c.2)
  | .connect => some { s with host := s.host.connect }
  | .register id info =>
      match s.host.instances id with
      | some none => some { s with host := s.host.registerProxy id info }
      | _ => none

/-- The commands that were sent, with their numbers. -/
def numbered (s : State) : List (Nat × PolicyCommand) := s.issued.mapIdx (fun n c => (n, c))

/-- The commands that an instance is to receive. -/
def wanted (s : State) (id : Nat) : List (Nat × PolicyRequest) :=
  (s.numbered.filter (fun c => s.host.selects c.2.instances id)).map (fun c => (c.1, c.2.request))

/-- The command is not in the queue. -/
def finished (s : State) (n : Nat) : Bool := s.queue.all (fun c => c.1 != n)

end State

def machine : Machine State Event := ⟨State.step⟩

/-- Every instance receives its commands in order and without a gap, and in the end all of them,
or none. -/
structure Right (s : State) : Prop where
  ordered : ∀ id, s.delivered id <+: s.wanted id
  complete : s.todo = [] → s.queue = [] → ∀ id, s.delivered id = [] ∨ s.delivered id = s.wanted id

/-- The command is for proxies with this information. -/
def PolicyCommandFor (info : Meta) (id : Nat) (c : PolicyCommand) : Prop :=
  c.instances.selects id (some info) = true

/-- When a command is sent or tried again, no earlier one for the same instance is in the queue.
When a proxy registers, none of its commands is over, or all of them are. -/
def Fits (s : State) : Event → Prop
  | .send _ => ∀ c rest, s.todo = .command c :: rest →
      ∀ id, s.host.selects c.instances id = true →
        ∀ q ∈ s.queue, s.host.selects q.2.instances id = false
  | .retry k => ∀ c, s.queue[k]? = some c → ∀ id, s.host.selects c.2.instances id = true →
      ∀ q ∈ s.queue, q.1 < c.1 → s.host.selects q.2.instances id = false
  | .connect => True
  | .register id info =>
      (∀ c ∈ s.numbered, PolicyCommandFor info id c.2 → s.finished c.1 = false) ∨
        ((∀ c ∈ s.numbered, PolicyCommandFor info id c.2 → s.finished c.1 = true) ∧
          ∀ c, .command c ∈ s.todo → ¬ PolicyCommandFor info id c)

/-! ## What holds after steps that fit -/

/-- What is so far delivered to an instance that receives its commands: those that are over, and
none is over before an earlier one. -/
structure Current (s : State) (id : Nat) : Prop where
  delivered : s.delivered id =
    (s.numbered.filter (fun c => s.host.selects c.2.instances id && s.finished c.1)).map
      (fun c => (c.1, c.2.request))
  closed : ∀ a ∈ s.numbered, ∀ b ∈ s.numbered, a.1 < b.1 →
    s.host.selects a.2.instances id = true → s.host.selects b.2.instances id = true →
      s.finished b.1 = true → s.finished a.1 = true

/-- An instance that registered when its commands were over. -/
structure Late (s : State) (id : Nat) : Prop where
  delivered : s.delivered id = []
  finished : ∀ c ∈ s.numbered, s.host.selects c.2.instances id = true → s.finished c.1 = true
  rest : ∀ c, .command c ∈ s.todo → s.host.selects c.instances id = false

structure Kept (s : State) : Prop where
  nodup : (s.queue.map Prod.fst).Nodup
  queued : ∀ q ∈ s.queue, ∃ c, (q.1, c) ∈ s.numbered ∧ c.instances = q.2.instances ∧
    c.request = q.2.request
  issued : ∀ c ∈ s.numbered, ∃ l, c.2.instances = .label l
  todo : ∀ c, .command c ∈ s.todo → ∃ l, c.instances = .label l
  each : ∀ id, Current s id ∨ Late s id

section

variable {s : State}

theorem sorted_numbered : s.numbered.Pairwise (fun a b => a.1 < b.1) := by
  unfold State.numbered
  rw [List.pairwise_iff_getElem]
  intro i j hi hj hlt
  rw [List.getElem_mapIdx, List.getElem_mapIdx]
  exact hlt

theorem lt_of_mem_numbered {c : Nat × PolicyCommand} (h : c ∈ s.numbered) :
    c.1 < s.issued.length := by
  unfold State.numbered at h
  rw [List.mem_mapIdx] at h
  obtain ⟨i, hi, rfl⟩ := h
  exact hi

theorem finished_iff {n : Nat} : s.finished n = true ↔ ∀ q ∈ s.queue, q.1 ≠ n := by
  unfold State.finished
  rw [List.all_eq_true]
  simp

/-- A part of a list that is closed towards its start is a prefix. -/
theorem filter_prefix_of_closed {α : Type} {p : α → Bool} {l : List α}
    (h : l.Pairwise (fun a b => p b = true → p a = true)) : l.filter p <+: l := by
  induction l with
  | nil => exact List.prefix_refl _
  | cons a l ih =>
      obtain ⟨hhead, htail⟩ := List.pairwise_cons.mp h
      by_cases ha : p a = true
      · rw [List.filter_cons_of_pos ha]
        exact List.cons_prefix_cons.mpr ⟨rfl, ih htail⟩
      · have hnone : l.filter p = [] := by
          rw [List.filter_eq_nil_iff]
          exact fun b hb hpb => ha (hhead b hb hpb)
        rw [List.filter_cons_of_neg ha, hnone]
        exact List.nil_prefix

theorem Current.prefix_wanted {id : Nat} (h : Current s id) : s.delivered id <+: s.wanted id := by
  have hsplit : s.numbered.filter (fun c => s.host.selects c.2.instances id && s.finished c.1) =
      (s.numbered.filter (fun c => s.host.selects c.2.instances id)).filter
        (fun c => s.finished c.1) := by
    rw [List.filter_filter]
    simp only [Bool.and_comm]
  rw [h.delivered, State.wanted, hsplit]
  refine (filter_prefix_of_closed ?_).map _
  have hsorted := (@sorted_numbered s).filter (fun c => s.host.selects c.2.instances id)
  refine hsorted.imp_of_mem (fun {a b} ha hb hlt hfin => ?_)
  obtain ⟨ha, hsa⟩ := List.mem_filter.mp ha
  obtain ⟨hb, hsb⟩ := List.mem_filter.mp hb
  exact h.closed a ha b hb hlt hsa hsb hfin

theorem Kept.right (h : Kept s) : Right s := by
  constructor
  · intro id
    rcases h.each id with hc | hl
    · exact hc.prefix_wanted
    · rw [hl.delivered]
      exact List.nil_prefix
  · intro _ hq id
    rcases h.each id with hc | hl
    · refine Or.inr ?_
      have hall : ∀ n, s.finished n = true := by
        intro n
        rw [finished_iff, hq]
        exact fun q hmem => absurd hmem List.not_mem_nil
      rw [hc.delivered, State.wanted]
      simp only [hall, Bool.and_true]
    · exact Or.inl hl.delivered

/-! ## Sending and trying again -/

/-- The next command of the request is put at the end of the queue. -/
def State.enqueue (s : State) (c : PolicyCommand) (rest : List Message) : State :=
  { s with
    todo := rest
    issued := s.issued ++ [c]
    queue := s.queue ++ [(s.issued.length, c)] }

/-- A command is taken from the queue and tried. -/
def State.take (s : State) (k : Nat) (c : Nat × PolicyCommand) : State :=
  { s with queue := s.queue.eraseIdx k }.attempt c.1 c.2

/-- To send a command is to try it from the end of the queue. -/
theorem onMessage_command (c : PolicyCommand) (rest : List Message) (spawned : Option UInt32) :
    { s with todo := rest }.onMessage spawned (.command c) =
      (s.enqueue c rest).take s.queue.length (s.issued.length, c) := by
  have hlast : (s.queue ++ [(s.issued.length, c)]).eraseIdx s.queue.length = s.queue := by
    rw [List.eraseIdx_append_of_length_le (Nat.le_refl _), Nat.sub_self]
    simp
  unfold State.take State.enqueue
  dsimp only
  rw [hlast]
  rfl

theorem numbered_enqueue (c : PolicyCommand) (rest : List Message) :
    (s.enqueue c rest).numbered = s.numbered ++ [(s.issued.length, c)] := by
  unfold State.numbered State.enqueue
  rw [List.mapIdx_concat]

theorem finished_enqueue {c : PolicyCommand} {rest : List Message} {a : Nat × PolicyCommand}
    (ha : a ∈ s.numbered) : (s.enqueue c rest).finished a.1 = s.finished a.1 := by
  have hlt := lt_of_mem_numbered ha
  unfold State.finished State.enqueue
  simp only [List.all_append, List.all_cons, List.all_nil, Bool.and_true]
  have hne : (s.issued.length != a.1) = true := by
    rw [bne_iff_ne]
    omega
  rw [hne, Bool.and_true]

theorem finished_enqueue_last {c : PolicyCommand} {rest : List Message} :
    (s.enqueue c rest).finished s.issued.length = false := by
  rw [← Bool.not_eq_true, finished_iff]
  exact fun h => h (s.issued.length, c) (List.mem_append_right _ (List.mem_singleton_self _)) rfl

theorem Kept.enqueue (h : Kept s) {c : PolicyCommand} {rest : List Message}
    (htodo : s.todo = .command c :: rest) : Kept (s.enqueue c rest) := by
  have hmem : ∀ a, a ∈ (s.enqueue c rest).numbered ↔ a ∈ s.numbered ∨ a = (s.issued.length, c) := by
    intro a
    rw [numbered_enqueue, List.mem_append, List.mem_singleton]
  refine ⟨?_, ?_, ?_, ?_, ?_⟩
  · have hnot : s.issued.length ∉ s.queue.map Prod.fst := by
      intro hin
      obtain ⟨q, hq, heq⟩ := List.mem_map.mp hin
      obtain ⟨c', hc', -⟩ := h.queued q hq
      have hlt := lt_of_mem_numbered hc'
      omega
    show ((s.queue ++ [(s.issued.length, c)]).map Prod.fst).Nodup
    rw [List.map_append, List.nodup_append]
    refine ⟨h.nodup, List.nodup_singleton _, fun a ha b hb heq => ?_⟩
    have hb' : b = s.issued.length := List.mem_singleton.mp hb
    rw [heq, hb'] at ha
    exact hnot ha
  · intro q hq
    rcases List.mem_append.mp hq with hq | hq
    · obtain ⟨c', hc', hsame⟩ := h.queued q hq
      exact ⟨c', (hmem _).mpr (Or.inl hc'), hsame⟩
    · rw [List.mem_singleton.mp hq]
      exact ⟨c, (hmem _).mpr (Or.inr rfl), rfl, rfl⟩
  · intro a ha
    rcases (hmem a).mp ha with ha | rfl
    · exact h.issued a ha
    · exact h.todo c (by rw [htodo]; exact List.mem_cons_self)
  · exact fun c' hc' => h.todo c' (by rw [htodo]; exact List.mem_cons_of_mem _ hc')
  · intro id
    rcases h.each id with hc | hl
    · refine Or.inl ⟨?_, ?_⟩
      · rw [numbered_enqueue, List.filter_append]
        have hlast : [(s.issued.length, c)].filter (fun c' =>
            (s.enqueue c rest).host.selects c'.2.instances id &&
              (s.enqueue c rest).finished c'.1) = [] := by
          rw [List.filter_cons_of_neg]
          · rfl
          · rw [finished_enqueue_last, Bool.and_false]
            exact Bool.false_ne_true
        have hold : s.numbered.filter (fun c' =>
            (s.enqueue c rest).host.selects c'.2.instances id &&
              (s.enqueue c rest).finished c'.1) =
            s.numbered.filter (fun c' => s.host.selects c'.2.instances id && s.finished c'.1) := by
          refine List.filter_congr (fun a ha => ?_)
          rw [finished_enqueue ha]
          rfl
        rw [hlast, List.append_nil, hold]
        exact hc.delivered
      · intro a ha b hb hlt hsa hsb hfin
        rcases (hmem b).mp hb with hb | rfl
        · rcases (hmem a).mp ha with ha | rfl
          · rw [finished_enqueue hb] at hfin
            rw [finished_enqueue ha]
            exact hc.closed a ha b hb hlt hsa hsb hfin
          · have hlt' := lt_of_mem_numbered hb
            dsimp only at hlt
            omega
        · rw [finished_enqueue_last] at hfin
          cases hfin
    · have hhead : Message.command c ∈ s.todo := by
        rw [htodo]
        exact List.mem_cons_self
      refine Or.inr ⟨hl.delivered, fun a ha hsel => ?_, fun c' hc' => ?_⟩
      · rcases (hmem a).mp ha with ha | rfl
        · rw [finished_enqueue ha]
          exact hl.finished a ha hsel
        · exact absurd ((hl.rest c hhead).symm.trans hsel) Bool.false_ne_true
      · exact hl.rest c' (by rw [htodo]; exact List.mem_cons_of_mem _ hc')

theorem eq_of_mem_numbered {a b : Nat × PolicyCommand} (ha : a ∈ s.numbered)
    (hb : b ∈ s.numbered) (h : a.1 = b.1) : a = b := by
  unfold State.numbered at ha hb
  rw [List.mem_mapIdx] at ha hb
  obtain ⟨i, hi, rfl⟩ := ha
  obtain ⟨j, hj, rfl⟩ := hb
  have hij : i = j := h
  subst hij
  rfl

/-- What stays in the queue when a command is taken from it. -/
theorem Kept.mem_eraseIdx (h : Kept s) {k : Nat} {c : Nat × PolicyCommand}
    (hk : s.queue[k]? = some c) {q : Nat × PolicyCommand} :
    q ∈ s.queue.eraseIdx k ↔ q ∈ s.queue ∧ q.1 ≠ c.1 := by
  obtain ⟨hlt, hget⟩ := List.getElem?_eq_some_iff.mp hk
  rw [List.mem_eraseIdx_iff_getElem?]
  constructor
  · rintro ⟨i, hne, hi⟩
    refine ⟨List.mem_of_getElem? hi, fun heq => hne ?_⟩
    have hilt : i < (s.queue.map Prod.fst).length := by
      rw [List.length_map]
      exact (List.getElem?_eq_some_iff.mp hi).1
    refine (List.getElem?_inj hilt h.nodup).mp ?_
    rw [List.getElem?_map, List.getElem?_map, hi, hk, Option.map_some, Option.map_some, heq]
  · rintro ⟨hq, hne⟩
    obtain ⟨i, hi, rfl⟩ := List.mem_iff_getElem.mp hq
    refine ⟨i, ?_, List.getElem?_eq_getElem hi⟩
    rintro rfl
    rw [hget] at hne
    exact hne rfl

/-- A command that is taken from the queue is over. -/
theorem Kept.finished_taken (h : Kept s) {k : Nat} {c : Nat × PolicyCommand}
    (hk : s.queue[k]? = some c) {s' : State} (hqueue : s'.queue = s.queue.eraseIdx k) {n : Nat} :
    s'.finished n = true ↔ n = c.1 ∨ s.finished n = true := by
  rw [finished_iff, finished_iff, hqueue]
  constructor
  · intro hall
    by_cases heq : n = c.1
    · exact Or.inl heq
    · refine Or.inr (fun q hq hqn => ?_)
      exact hall q ((h.mem_eraseIdx hk).mpr ⟨hq, by rwa [hqn]⟩) hqn
  · rintro (rfl | hall) q hq hqn
    · exact ((h.mem_eraseIdx hk).mp hq).2 hqn
    · exact hall q ((h.mem_eraseIdx hk).mp hq).1 hqn

/-- One more member of a sorted list is kept, after which none was. -/
theorem filter_add {α : Type} {r : α → α → Prop} {l : List α} {p p' : α → Bool} {x : α}
    (hsorted : l.Pairwise r) (hx : x ∈ l) (hirr : ∀ a, ¬ r a a)
    (hother : ∀ a ∈ l, a ≠ x → p' a = p a) (hold : p x = false) (hnew : p' x = true)
    (hafter : ∀ b ∈ l, r x b → p b = false) : l.filter p' = l.filter p ++ [x] := by
  induction l with
  | nil => cases hx
  | cons a l ih =>
      obtain ⟨hhead, htail⟩ := List.pairwise_cons.mp hsorted
      by_cases heq : a = x
      · subst heq
        have hnone : ∀ b ∈ l, p b = false := fun b hb =>
          hafter b (List.mem_cons_of_mem _ hb) (hhead b hb)
        have hnone' : ∀ b ∈ l, p' b = false := by
          intro b hb
          rw [hother b (List.mem_cons_of_mem _ hb), hnone b hb]
          rintro rfl
          exact hirr b (hhead b hb)
        have hfilter : l.filter p = [] :=
          List.filter_eq_nil_iff.mpr (fun b hb => by rw [hnone b hb]; exact Bool.false_ne_true)
        have hfilter' : l.filter p' = [] :=
          List.filter_eq_nil_iff.mpr (fun b hb => by rw [hnone' b hb]; exact Bool.false_ne_true)
        rw [List.filter_cons_of_pos hnew, hfilter', List.filter_cons_of_neg (by rw [hold]; decide),
          hfilter]
        rfl
      · have hin := (List.mem_cons.mp hx).resolve_left (fun h => heq h.symm)
        have hrest := ih htail hin (fun b hb => hother b (List.mem_cons_of_mem _ hb))
          (fun b hb => hafter b (List.mem_cons_of_mem _ hb))
        rw [List.filter_cons, List.filter_cons, hother a List.mem_cons_self heq, hrest]
        split <;> rfl

/-- An instance that is sent the command of a queue which is before all others that are for it. -/
theorem Current.taken {id : Nat} (hc : Current s id) (h : Kept s) {k : Nat}
    {c : Nat × PolicyCommand} (hk : s.queue[k]? = some c)
    (hsel : s.host.selects c.2.instances id = true)
    (hfree : ∀ q ∈ s.queue, q.1 < c.1 → s.host.selects q.2.instances id = false) {s' : State}
    (hhost : s'.host = s.host) (hissued : s'.issued = s.issued)
    (hqueue : s'.queue = s.queue.eraseIdx k)
    (hdel : s'.delivered id = s.delivered id ++ [(c.1, c.2.request)]) : Current s' id := by
  have hin := List.mem_of_getElem? hk
  obtain ⟨c', hc', hinst, hreq⟩ := h.queued c hin
  have hnum : s'.numbered = s.numbered := by
    unfold State.numbered
    rw [hissued]
  have hfin : ∀ n, s'.finished n = true ↔ n = c.1 ∨ s.finished n = true := fun n =>
    h.finished_taken hk hqueue
  have hopen : s.finished c.1 = false := by
    rw [← Bool.not_eq_true, finished_iff]
    exact fun hall => hall c hin rfl
  have hother : ∀ a ∈ s.numbered, a.1 ≠ c.1 → s'.finished a.1 = s.finished a.1 := by
    intro a _ hne
    rw [Bool.eq_iff_iff, hfin, or_iff_right hne]
  have hselc : s.host.selects c'.instances id = true := by rw [hinst, hsel]
  have hsame : ∀ a ∈ s.numbered, a.1 = c.1 → a = (c.1, c') := fun a ha heq =>
    eq_of_mem_numbered ha hc' heq
  constructor
  · have hadd := @filter_add _ (fun a b => a.1 < b.1) s.numbered
      (fun a => s.host.selects a.2.instances id && s.finished a.1)
      (fun a => s.host.selects a.2.instances id && s'.finished a.1) (c.1, c') sorted_numbered hc'
      (fun a => Nat.lt_irrefl _)
      (fun a ha hne => by rw [hother a ha (fun heq => hne (hsame a ha heq))])
      (by rw [hopen, Bool.and_false]) (by rw [hselc, (hfin c.1).mpr (Or.inl rfl), Bool.and_true])
      (fun b hb hlt => by
        rw [← Bool.not_eq_true, Bool.and_eq_true]
        rintro ⟨hsb, hfb⟩
        have hover := hc.closed _ hc' b hb hlt hselc hsb hfb
        rw [hopen] at hover
        cases hover)
    rw [hdel, hnum, hhost, hadd, hc.delivered, List.map_append, ← hreq]
    rfl
  · rw [hnum, hhost]
    intro a ha b hb hlt hsa hsb hfb
    rw [hfin] at hfb ⊢
    rcases hfb with heq | hfb
    · -- an earlier command that is still in the queue would be overtaken
      refine Or.inr (finished_iff.mpr (fun q hq hqa => ?_))
      obtain ⟨cq, hcq, hqi, -⟩ := h.queued q hq
      have hsame := eq_of_mem_numbered hcq ha hqa
      have hnot := hfree q hq (by omega)
      rw [← hqi, show cq = a.2 from congrArg Prod.snd hsame, hsa] at hnot
      cases hnot
    · exact Or.inr (hc.closed a ha b hb hlt hsa hsb hfb)

/-- An instance that the command which is taken is not for. -/
theorem Kept.passed (h : Kept s) {id : Nat} {k : Nat} {c : Nat × PolicyCommand}
    (hk : s.queue[k]? = some c) (hsel : s.host.selects c.2.instances id = false) {s' : State}
    (hhost : s'.host = s.host) (hissued : s'.issued = s.issued) (htodo : s'.todo = s.todo)
    (hqueue : s'.queue = s.queue.eraseIdx k) (hdel : s'.delivered id = s.delivered id) :
    Current s' id ∨ Late s' id := by
  have hnum : s'.numbered = s.numbered := by
    unfold State.numbered
    rw [hissued]
  obtain ⟨c', hc', hinst, -⟩ := h.queued c (List.mem_of_getElem? hk)
  have hfin : ∀ a ∈ s.numbered, s.host.selects a.2.instances id = true →
      s'.finished a.1 = s.finished a.1 := by
    intro a ha hsa
    rw [Bool.eq_iff_iff, h.finished_taken hk hqueue, or_iff_right]
    intro heq
    have hsame := eq_of_mem_numbered ha hc' heq
    rw [hsame, show (c.1, c').2 = c' from rfl, hinst, hsel] at hsa
    cases hsa
  rcases h.each id with hc | hl
  · refine Or.inl ⟨?_, ?_⟩
    · rw [hdel, hnum, hhost, hc.delivered]
      congr 1
      refine List.filter_congr (fun a ha => ?_)
      by_cases hsa : s.host.selects a.2.instances id = true
      · rw [hfin a ha hsa]
      · rw [Bool.not_eq_true] at hsa
        rw [hsa, Bool.false_and, Bool.false_and]
    · rw [hnum, hhost]
      intro a ha b hb hlt hsa hsb hfb
      rw [hfin b hb hsb] at hfb
      rw [hfin a ha hsa]
      exact hc.closed a ha b hb hlt hsa hsb hfb
  · refine Or.inr ⟨hdel.trans hl.delivered, ?_, ?_⟩
    · rw [hnum, hhost]
      intro a ha hsa
      rw [hfin a ha hsa]
      exact hl.finished a ha hsa
    · rw [htodo, hhost]
      exact hl.rest

theorem Kept.nodup_eraseIdx (h : Kept s) (k : Nat) :
    ((s.queue.eraseIdx k).map Prod.fst).Nodup :=
  h.nodup.sublist ((List.eraseIdx_sublist s.queue k).map _)

/-- To try a command of the queue keeps what holds, if none that comes before it is in the queue
for an instance that it is for. -/
theorem Kept.take (h : Kept s) {k : Nat} {c : Nat × PolicyCommand} (hk : s.queue[k]? = some c)
    (hfree : ∀ id, s.host.selects c.2.instances id = true →
      ∀ q ∈ s.queue, q.1 < c.1 → s.host.selects q.2.instances id = false) :
    Kept (s.take k c) := by
  have hsub : ∀ q ∈ s.queue.eraseIdx k, q ∈ s.queue := fun q hq => ((h.mem_eraseIdx hk).mp hq).1
  unfold State.take State.attempt
  dsimp only
  split_ifs with hempty hretry
  · -- it goes back to the end of the queue
    have hback : ∀ q, q ∈ s.queue.eraseIdx k ++ [(c.1, c.2.secondAttempt)] ↔
        (q ∈ s.queue ∧ q.1 ≠ c.1) ∨ q = (c.1, c.2.secondAttempt) := by
      intro q
      rw [List.mem_append, List.mem_singleton, h.mem_eraseIdx hk]
    obtain ⟨c', hc', hinst, hreq⟩ := h.queued c (List.mem_of_getElem? hk)
    have hfin : ∀ n, State.finished { s with
        queue := s.queue.eraseIdx k ++ [(c.1, c.2.secondAttempt)] } n = s.finished n := by
      intro n
      rw [Bool.eq_iff_iff, finished_iff, finished_iff]
      constructor
      · intro hall q hq
        by_cases heq : q.1 = c.1
        · rw [heq]
          exact hall (c.1, c.2.secondAttempt) ((hback _).mpr (Or.inr rfl))
        · exact hall q ((hback q).mpr (Or.inl ⟨hq, heq⟩))
      · intro hall q hq
        rcases (hback q).mp hq with ⟨hq, -⟩ | rfl
        · exact hall q hq
        · exact hall c (List.mem_of_getElem? hk)
    refine ⟨?_, ?_, h.issued, h.todo, fun id => ?_⟩
    · show ((s.queue.eraseIdx k ++ [(c.1, c.2.secondAttempt)]).map Prod.fst).Nodup
      rw [List.map_append, List.nodup_append]
      refine ⟨h.nodup_eraseIdx k, List.nodup_singleton _, fun a ha b hb heq => ?_⟩
      obtain ⟨q, hq, rfl⟩ := List.mem_map.mp ha
      have hb' : b = c.1 := List.mem_singleton.mp hb
      exact ((h.mem_eraseIdx hk).mp hq).2 (heq.trans hb')
    · intro q hq
      rcases (hback q).mp hq with ⟨hq, -⟩ | rfl
      · exact h.queued q hq
      · exact ⟨c', hc', hinst, hreq⟩
    · rcases h.each id with hc | hl
      · refine Or.inl ⟨?_, fun a ha b hb hlt hsa hsb hfb => ?_⟩
        · refine hc.delivered.trans (congrArg _ (List.filter_congr (fun a ha => ?_)))
          rw [hfin]
        · rw [hfin] at hfb ⊢
          exact hc.closed a ha b hb hlt hsa hsb hfb
      · refine Or.inr ⟨hl.delivered, fun a ha hsa => ?_, hl.rest⟩
        rw [hfin]
        exact hl.finished a ha hsa
  · -- it is dropped
    refine ⟨h.nodup_eraseIdx k, fun q hq => h.queued q (hsub q hq), h.issued, h.todo, fun id => ?_⟩
    exact h.passed hk (ArmourDataHost.isEmpty_getInstances.mp hempty id) rfl rfl rfl rfl rfl
  · refine ⟨h.nodup_eraseIdx k, fun q hq => h.queued q (hsub q hq), h.issued, h.todo, fun id => ?_⟩
    by_cases hsel : s.host.selects c.2.instances id = true
    · have hc : Current s id := by
        refine (h.each id).resolve_right (fun hl => ?_)
        obtain ⟨c', hc', hinst, -⟩ := h.queued c (List.mem_of_getElem? hk)
        have hover := finished_iff.mp (hl.finished _ hc' (by
          show s.host.selects c'.instances id = true
          rw [hinst, hsel]))
        exact hover c (List.mem_of_getElem? hk) rfl
      exact Or.inl (hc.taken h hk hsel (hfree id hsel) rfl rfl rfl (if_pos hsel))
    · exact h.passed hk (Bool.not_eq_true _ ▸ hsel) rfl rfl rfl rfl (if_neg hsel)

/-! ## Connections and registrations -/

/-- A command for proxies with a label is for no instance that has not registered. -/
theorem selects_unregistered {h : ArmourDataHost} {c : PolicyCommand} {id : Nat}
    (hlabel : ∃ l, c.instances = .label l) (hid : ∀ info, h.instances id ≠ some (some info)) :
    h.selects c.instances id = false := by
  obtain ⟨l, hl⟩ := hlabel
  rw [hl, ← Bool.not_eq_true, ArmourDataHost.selects_label]
  rintro ⟨info, hinfo, -⟩
  exact hid info hinfo

/-- The host changes, but not for the instance. -/
theorem Kept.host_congr {id : Nat} (hid : Current s id ∨ Late s id) {host : ArmourDataHost}
    (h : ∀ c : PolicyCommand, (c ∈ s.issued ∨ .command c ∈ s.todo) →
      host.selects c.instances id = s.host.selects c.instances id) :
    Current { s with host := host } id ∨ Late { s with host := host } id := by
  have hnum : ∀ a ∈ s.numbered, a.2 ∈ s.issued := by
    intro a ha
    unfold State.numbered at ha
    rw [List.mem_mapIdx] at ha
    obtain ⟨i, hi, rfl⟩ := ha
    exact List.getElem_mem hi
  have hsame : ∀ a ∈ s.numbered, host.selects a.2.instances id = s.host.selects a.2.instances id :=
    fun a ha => h a.2 (Or.inl (hnum a ha))
  rcases hid with hc | hl
  · refine Or.inl ⟨?_, fun a ha b hb hlt hsa hsb => ?_⟩
    · refine hc.delivered.trans (congrArg _ (List.filter_congr (fun a ha => ?_)))
      rw [← hsame a ha]
      rfl
    · exact hc.closed a ha b hb hlt ((hsame a ha).symm.trans hsa) ((hsame b hb).symm.trans hsb)
  · refine Or.inr ⟨hl.delivered, fun a ha hsa => ?_, fun c hc => ?_⟩
    · exact hl.finished a ha ((hsame a ha).symm.trans hsa)
    · exact (h c (Or.inr hc)).trans (hl.rest c hc)

theorem Kept.label_of_mem (h : Kept s) {c : PolicyCommand}
    (hc : c ∈ s.issued ∨ .command c ∈ s.todo) : ∃ l, c.instances = .label l := by
  rcases hc with hc | hc
  · obtain ⟨i, hi, rfl⟩ := List.mem_iff_getElem.mp hc
    refine h.issued (i, s.issued[i]) ?_
    unfold State.numbered
    rw [List.mem_mapIdx]
    exact ⟨i, hi, rfl⟩
  · exact h.todo c hc

theorem Kept.connect (h : Kept s) : Kept { s with host := s.host.connect } := by
  refine ⟨h.nodup, h.queued, h.issued, h.todo, fun id => host_congr (h.each id) ?_⟩
  intro c hc
  by_cases heq : id = s.host.count
  · -- the new instance has not registered, and was not there before
    have hlabel := h.label_of_mem hc
    rw [selects_unregistered hlabel, selects_unregistered hlabel]
    · intro info hinfo
      rw [heq, s.host.fresh _ (Nat.le_refl _)] at hinfo
      cases hinfo
    · intro info hinfo
      rw [ArmourDataHost.instances_connect, heq, Function.update_self] at hinfo
      cases hinfo
  · unfold ArmourDataHost.selects
    rw [ArmourDataHost.instances_connect, Function.update_of_ne heq]

theorem Kept.register (h : Kept s) {id : Nat} {info : Meta} (hid : s.host.instances id = some none)
    (hfits : Fits s (.register id info)) :
    Kept { s with host := s.host.registerProxy id info } := by
  refine ⟨h.nodup, h.queued, h.issued, h.todo, fun other => ?_⟩
  by_cases heq : other = id
  · subst heq
    have hsel : ∀ sel : InstanceSelector,
        (s.host.registerProxy other info).selects sel other = sel.selects other (some info) := by
      intro sel
      unfold ArmourDataHost.selects
      rw [ArmourDataHost.instances_registerProxy, Function.update_self, hid]
      rfl
    have hnil : s.delivered other = [] := by
      rcases h.each other with hc | hl
      · have hnone : s.numbered.filter
            (fun a => s.host.selects a.2.instances other && s.finished a.1) = [] := by
          rw [List.filter_eq_nil_iff]
          intro a ha
          rw [selects_unregistered (h.issued a ha), Bool.false_and]
          · exact Bool.false_ne_true
          · intro i hi
            rw [hid] at hi
            cases hi
        rw [hc.delivered, hnone]
        rfl
      · exact hl.delivered
    rcases hfits with hopen | ⟨hover, hrest⟩
    · refine Or.inl ⟨hnil.trans ?_, fun a ha b hb hlt hsa hsb hfb => ?_⟩
      · have hnone : s.numbered.filter (fun a =>
            (s.host.registerProxy other info).selects a.2.instances other && s.finished a.1) = [] := by
          rw [List.filter_eq_nil_iff]
          intro a ha
          rw [hsel, Bool.and_eq_true]
          rintro ⟨hsa, hfa⟩
          rw [hopen a ha hsa] at hfa
          cases hfa
        exact (congrArg (List.map (fun c => (c.1, c.2.request))) hnone).symm
      · have hb' := hopen b hb ((hsel _).symm.trans hsb)
        exact absurd (hb'.symm.trans hfb) Bool.false_ne_true
    · refine Or.inr ⟨hnil, fun a ha hsa => hover a ha ((hsel _).symm.trans hsa), fun c hc => ?_⟩
      rw [← Bool.not_eq_true]
      exact fun hsc => hrest c hc ((hsel _).symm.trans hsc)
  · refine host_congr (h.each other) (fun c _ => ?_)
    unfold ArmourDataHost.selects
    rw [ArmourDataHost.instances_registerProxy, Function.update_of_ne heq]

/-- A step that fits keeps what holds. -/
theorem Kept.step (h : Kept s) {e : Event} {s' : State} (hfits : Fits s e)
    (hstep : machine.step s e = some s') : Kept s' := by
  have hstep : s.step e = some s' := hstep
  cases e with
  | send spawned =>
      unfold State.step at hstep
      dsimp only at hstep
      split at hstep
      · cases hstep
      · next message rest htodo =>
        cases hstep
        cases message with
        | launch msg =>
            have hrest : Kept { s with todo := rest } := by
              have htail : ∀ c, Message.command c ∈ rest → Message.command c ∈ s.todo := fun c hc => by
                rw [htodo]
                exact List.mem_cons_of_mem _ hc
              refine ⟨h.nodup, h.queued, h.issued, fun c hc => h.todo c (htail c hc), fun id => ?_⟩
              exact (h.each id).imp (fun hc => ⟨hc.delivered, hc.closed⟩)
                (fun hl => ⟨hl.delivered, hl.finished, fun c hc => hl.rest c (htail c hc)⟩)
            unfold State.onMessage
            dsimp only
            split
            · exact ⟨hrest.nodup, hrest.queued, hrest.issued, hrest.todo, fun id =>
                host_congr (hrest.each id) (fun _ _ => rfl)⟩
            · exact hrest
        | command c =>
            rw [onMessage_command]
            have hlast : (s.enqueue c rest).queue[s.queue.length]? = some (s.issued.length, c) := by
              unfold State.enqueue
              simp
            refine (h.enqueue htodo).take hlast (fun id hsel q hq hlt => ?_)
            rcases List.mem_append.mp hq with hq | hq
            · exact hfits c rest htodo id hsel q hq
            · rw [List.mem_singleton.mp hq] at hlt
              dsimp only at hlt
              omega
  | retry k =>
      obtain ⟨c, hk, rfl⟩ := Option.map_eq_some_iff.mp hstep
      exact h.take hk (hfits c hk)
  | connect =>
      cases hstep
      exact h.connect
  | register id info =>
      unfold State.step at hstep
      dsimp only at hstep
      split at hstep
      · next hid =>
        cases hstep
        exact h.register hid hfits
      · cases hstep

end

/-- The commands of a request are for proxies with a label. -/
theorem label_of_mem_onBoardProxies {forms : SocketForms} {checks : Bool} {port : UInt16}
    {ipLabels : List (UInt32 × BTreeSet Label)} {proxies : List Proxy} {c : PolicyCommand}
    (h : .command c ∈ (onBoardProxies forms checks port ipLabels proxies).1) :
    ∃ l, c.instances = .label l := by
  induction proxies with
  | nil => cases h
  | cons proxy proxies ih =>
      rw [onBoardProxies] at h
      split at h
      · simp only [List.mem_cons, List.not_mem_nil, or_false] at h
        rcases h with h | h
        · cases h
        · cases h
          exact ⟨_, rfl⟩
      · dsimp only at h
        simp only [List.cons_append, List.nil_append, List.mem_cons] at h
        rcases h with h | h | h | h | h
        · cases h
        · cases h
          exact ⟨_, rfl⟩
        · cases h
          exact ⟨_, rfl⟩
        · cases h
          exact ⟨_, rfl⟩
        · exact ih h

/-- In every state of a run of an on-boarding request whose steps all fit, all is right. -/
theorem delivered_of_fits {forms : SocketForms} {checks : Bool} {information : OnboardInformation}
    {host : ArmourDataHost} {es : List Event} {t : State}
    (hfits : machine.Steps Fits (.start host (onBoard forms checks information).1) es)
    (hrun : machine.run (.start host (onBoard forms checks information).1) es = some t) :
    Right t := by
  refine (Machine.run_invariant (P := Kept) (fun _ _ _ h hf hs => h.step hf hs) ?_ hfits hrun).right
  refine ⟨List.nodup_nil, fun q hq => absurd hq List.not_mem_nil,
    fun c hc => absurd hc List.not_mem_nil, fun c hc => label_of_mem_onBoardProxies hc,
    fun id => Or.inl ⟨rfl, fun a ha => absurd ha List.not_mem_nil⟩⟩

/-- A request for the proxy `a`, on the port 7000. -/
def requestFor : OnboardInformation := ⟨[⟨⟨[.str "a"]⟩, some 7000, none, false, none⟩], []⟩

/-- The request, sent to a host without instances. -/
def startOf : State := .start (.start ⟨[.str "h"]⟩ true) (onBoard noSockets true requestFor).1

def metaOf : Meta := ⟨7, none, ⟨[.str "a"]⟩, "", ""⟩

/-- No command is over while all of them are in the queue. -/
theorem fits_register {s : State} (h : s.queue.map Prod.fst = List.range s.issued.length)
    (id : Nat) (info : Meta) : Fits s (.register id info) := by
  refine Or.inl (fun c hc _ => ?_)
  obtain ⟨n, hn, rfl⟩ := List.mem_mapIdx.mp hc
  have hmem : n ∈ s.queue.map Prod.fst := h ▸ List.mem_range.mpr hn
  obtain ⟨q, hq, rfl⟩ := List.mem_map.mp hmem
  exact List.all_eq_false.mpr ⟨q, hq, by simp⟩

/-- The first command in the queue may be tried again if it was sent first. -/
theorem fits_retry {s : State} (h : (s.queue.map Prod.fst).Pairwise (· < ·)) :
    Fits s (.retry 0) := by
  intro c hc id _ q hq hlt
  rw [List.pairwise_map] at h
  cases hqueue : s.queue with
  | nil => rw [hqueue] at hq; cases hq
  | cons c' rest =>
      rw [hqueue] at h hc hq
      cases hc
      rcases List.mem_cons.mp hq with rfl | hq
      · exact absurd hlt (Nat.lt_irrefl _)
      · exact absurd hlt (Nat.not_lt.mpr (le_of_lt (List.rel_of_pairwise_cons h hq)))

/-- The proxy registers when all of its commands wait, and they are tried again in order. -/
def registerLast : List Event :=
  [.send (some 7), .send none, .send none, .send none, .connect, .register 0 metaOf, .retry 0,
    .retry 0, .retry 0]

theorem right_registerLast : ∃ t, machine.run startOf registerLast = some t ∧
    (t.delivered 0).map Prod.fst = [0, 1, 2] ∧ Right t := by
  refine ⟨_, rfl, rfl, @delivered_of_fits noSockets true requestFor (.start ⟨[.str "h"]⟩ true)
    registerLast _ ?_ rfl⟩
  -- there is no instance while the commands are sent
  refine ⟨fun _ _ _ _ h => absurd h Bool.false_ne_true, fun _ h => ?_⟩
  cases h
  refine ⟨fun _ _ _ _ h => absurd h Bool.false_ne_true, fun _ h => ?_⟩
  cases h
  refine ⟨fun _ _ _ _ h => absurd h Bool.false_ne_true, fun _ h => ?_⟩
  cases h
  refine ⟨fun _ _ _ _ h => absurd h Bool.false_ne_true, fun _ h => ?_⟩
  cases h
  refine ⟨trivial, fun _ h => ?_⟩
  cases h
  refine ⟨fits_register rfl _ _, fun _ h => ?_⟩
  cases h
  have hsorted : ([0, 1, 2] : List Nat).Pairwise (· < ·) := by decide
  refine ⟨fits_retry hsorted, fun _ h => ?_⟩
  cases h
  refine ⟨fits_retry hsorted.tail, fun _ h => ?_⟩
  cases h
  exact ⟨fits_retry hsorted.tail.tail, fun _ _ => trivial⟩

/-- The proxy registers after the first command was sent: its labels come last, when it has been
started already. -/
theorem delivered_late : ∃ t, machine.run startOf [.send (some 7), .send none, .connect,
      .register 0 metaOf, .send none, .send none, .retry 0] = some t ∧
    (t.delivered 0).map Prod.fst = [1, 2, 0] ∧ ¬ Right t := by
  refine ⟨_, rfl, rfl, fun h => ?_⟩
  have hprefix := (h.ordered 0).map Prod.fst
  exact absurd hprefix (by decide)

end Armour.Host.Commands
