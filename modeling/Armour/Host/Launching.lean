import Armour.Host.Actor
import Armour.Lib.Machine

/-! # Launching of proxies

The host and the proxy processes that it starts.  A process connects, registers and ends whenever
it likes; whether there is already a proxy is decided by the instances that have registered.
-/

namespace Armour.Host.Launching

open Armour.Lib Armour.Lang Armour.Api

/-- A process `armour-proxy`, with the label that it was launched for and the number of its
connection. -/
structure Process where
  pid : UInt32
  label : Label
  alive : Bool
  connection : Option Nat

structure State where
  host : ArmourDataHost
  processes : List Process

inductive Event where
  /-- `Launch`, with the number of the new process, if it can be started. -/
  | launch (msg : Launch) (spawned : Option UInt32)
  /-- A process connects to the socket of the host. -/
  | connect (p : Nat)
  /-- A process tells what it is, with the hashes of its policies. -/
  | register (p : Nat) (http tcp : String)
  /-- A process ends. -/
  | exit (p : Nat)
  /-- `Disconnect`, and whether the host could wait for the process. -/
  | disconnect (id : Nat) (waited : Bool)

namespace State

def start (label : Label) (onboarded : Bool) : State := ⟨.start label onboarded, []⟩

/-- A number that the system may give to a new process. -/
def freePid (s : State) (pid : UInt32) : Bool :=
  !s.host.children pid && s.processes.all (fun proc => !(proc.alive && proc.pid == pid))

def spawn (s : State) (label : Label) (pid : UInt32) : State :=
  ⟨s.host.addChild pid, s.processes ++ [⟨pid, label, true, none⟩]⟩

def onConnect (s : State) (p : Nat) : State :=
  { s with
    host := s.host.connect
    processes := s.processes.modify p (fun proc => { proc with connection := some s.host.count }) }

def onExit (s : State) (p : Nat) : State :=
  { s with processes := s.processes.modify p (fun proc => { proc with alive := false }) }

/-- The process has ended when the host has waited for it. -/
def endProcess (pid : UInt32) (proc : Process) : Process :=
  if proc.pid = pid then { proc with alive := false } else proc

def onDisconnect (s : State) (id : Nat) (waited : Bool) : State :=
  { host := s.host.disconnect id
    processes :=
      match s.host.awaited id, waited with
      | some pid, true => s.processes.map (endProcess pid)
      | _, _ => s.processes }

def step (s : State) : Event → Option State
  | .launch msg spawned =>
      if s.host.launches msg then
        match spawned with
        | some pid => if s.freePid pid then some (s.spawn msg.label pid) else none
        | none => some s
      else some s
  | .connect p =>
      match s.processes[p]? with
      | some ⟨_, _, true, none⟩ => some (s.onConnect p)
      | _ => none
  | .register p http tcp =>
      match s.processes[p]? with
      | some ⟨pid, label, _, some id⟩ =>
          -- the label is an argument of the process, which reads it
          match Label.fromStr label.display with
          | .ok own => some { s with host := s.host.registerProxy id ⟨pid, none, own, http, tcp⟩ }
          | .error _ => none
      | _ => none
  | .exit p => some (s.onExit p)
  | .disconnect id waited => some (s.onDisconnect id waited)

/-- At most one process is alive for each label. -/
def Single (s : State) : Prop :=
  ∀ (p q : Nat) x y, s.processes[p]? = some x → s.processes[q]? = some y → x.alive = true →
    y.alive = true → x.label = y.label → p = q

end State

def machine : Machine State Event := ⟨State.step⟩

/-- Where a process could be started, no process for its label is alive, or a proxy with a label
that it matches has registered and is connected. -/
def Fits (s : State) : Event → Prop
  | .launch msg (some _) => (∀ x ∈ s.processes, x.label = msg.label → x.alive = false) ∨
      (msg.force = false ∧ ∃ id info, s.host.instances id = some (some info) ∧
        msg.label.matchesWith info.label = true)
  | _ => True

/-! ## Processes -/

section

variable {s s' : State}

theorem launches_eq_false {h : ArmourDataHost} {msg : Launch} : h.launches msg = false ↔
    msg.force = false ∧ ∃ id info, h.instances id = some (some info) ∧
      msg.label.matchesWith info.label = true := by
  unfold ArmourDataHost.launches
  rw [Bool.or_eq_false_iff, ← Bool.not_eq_true (List.isEmpty _),
    ArmourDataHost.isEmpty_getInstances]
  refine and_congr_right (fun _ => ?_)
  rw [not_forall]
  refine exists_congr (fun id => ?_)
  rw [Bool.not_eq_false, ArmourDataHost.selects_label]

/-- Processes keep their labels, and no process comes back to life. -/
def Older (xs ys : List Process) : Prop :=
  ∀ (p : Nat) y, ys[p]? = some y →
    ∃ x, xs[p]? = some x ∧ y.label = x.label ∧ (y.alive = true → x.alive = true)

theorem Older.refl (xs : List Process) : Older xs xs :=
  fun _ y hy => ⟨y, hy, rfl, id⟩

theorem Older.map {f : Process → Process} (hlabel : ∀ x, (f x).label = x.label)
    (halive : ∀ x, (f x).alive = true → x.alive = true) (xs : List Process) :
    Older xs (xs.map f) := by
  intro p y hy
  rw [List.getElem?_map] at hy
  obtain ⟨x, hx, rfl⟩ := Option.map_eq_some_iff.mp hy
  exact ⟨x, hx, hlabel x, halive x⟩

theorem Older.modify {f : Process → Process} (hlabel : ∀ x, (f x).label = x.label)
    (halive : ∀ x, (f x).alive = true → x.alive = true) (xs : List Process) (n : Nat) :
    Older xs (xs.modify n f) := by
  intro p y hy
  rw [List.getElem?_modify] at hy
  obtain ⟨x, hx, rfl⟩ := Option.map_eq_some_iff.mp hy
  refine ⟨x, hx, ?_⟩
  split
  · exact ⟨hlabel x, halive x⟩
  · exact ⟨rfl, id⟩

theorem Older.single {xs : List Process} {h h' : ArmourDataHost} (hs : State.Single ⟨h, xs⟩)
    {ys : List Process} (hold : Older xs ys) : State.Single ⟨h', ys⟩ := by
  intro p q x y hx hy hxa hya hlabel
  obtain ⟨x', hx', hxl, hxa'⟩ := hold p x hx
  obtain ⟨y', hy', hyl, hya'⟩ := hold q y hy
  exact hs p q x' y' hx' hy' (hxa' hxa) (hya' hya) (by rw [← hxl, ← hyl, hlabel])

/-- One more process is the only one for its label exactly if no other one is alive. -/
theorem single_spawn (hs : s.Single) (label : Label) (pid : UInt32) :
    (s.spawn label pid).Single ↔ ∀ x ∈ s.processes, x.label = label → x.alive = false := by
  have hold : ∀ (p : Nat) x, (s.spawn label pid).processes[p]? = some x →
      s.processes[p]? = some x ∨ (p = s.processes.length ∧ x = ⟨pid, label, true, none⟩) := by
    intro p x hx
    unfold State.spawn at hx
    rcases Nat.lt_or_ge p s.processes.length with hlt | hge
    · rw [List.getElem?_append_left hlt] at hx
      exact Or.inl hx
    · rw [List.getElem?_append_right hge] at hx
      have hmem := List.mem_singleton.mp (List.mem_of_getElem? hx)
      have hbound := (List.getElem?_eq_some_iff.mp hx).1
      rw [List.length_singleton] at hbound
      exact Or.inr ⟨by omega, hmem⟩
  have hnew : (s.spawn label pid).processes[s.processes.length]? = some ⟨pid, label, true, none⟩ := by
    unfold State.spawn
    simp
  constructor
  · intro hall x hx hlabel
    obtain ⟨p, hp, rfl⟩ := List.mem_iff_getElem.mp hx
    rw [← Bool.not_eq_true]
    intro halive
    have hp' : (s.spawn label pid).processes[p]? = some s.processes[p] := by
      unfold State.spawn
      rw [List.getElem?_append_left hp, List.getElem?_eq_getElem hp]
    have heq := hall p _ _ _ hp' hnew halive rfl hlabel
    omega
  · intro hnone p q x y hx hy hxa hya hlabel
    -- the new process is not the other of the two
    rcases hold p x hx with hx | ⟨rfl, rfl⟩ <;> rcases hold q y hy with hy | ⟨rfl, rfl⟩
    · exact hs p q x y hx hy hxa hya hlabel
    · rw [hnone x (List.mem_of_getElem? hx) hlabel] at hxa
      cases hxa
    · rw [hnone y (List.mem_of_getElem? hy) hlabel.symm] at hya
      cases hya
    · rfl

/-- A step keeps one process for each label exactly if it fits. -/
theorem single_step {e : Event} (hs : s.Single) (hstep : machine.step s e = some s') :
    s'.Single ↔ Fits s e := by
  have hstep : s.step e = some s' := hstep
  cases e with
  | launch msg spawned =>
      unfold State.step at hstep
      cases spawned with
      | none =>
          refine iff_of_true ?_ trivial
          dsimp only at hstep
          split at hstep <;> cases hstep <;> exact hs
      | some pid =>
          dsimp only at hstep
          show _ ↔ (_ ∨ _)
          by_cases hlaunch : s.host.launches msg = true
          · rw [if_pos hlaunch] at hstep
            split at hstep
            · cases hstep
              rw [single_spawn hs, ← launches_eq_false, hlaunch]
              exact (or_iff_left (by decide)).symm
            · cases hstep
          · rw [if_neg hlaunch] at hstep
            cases hstep
            rw [Bool.not_eq_true] at hlaunch
            exact iff_of_true hs (Or.inr (launches_eq_false.mp hlaunch))
  | connect p =>
      refine iff_of_true ?_ trivial
      unfold State.step at hstep
      dsimp only at hstep
      split at hstep
      · cases hstep
        exact (@Older.modify (fun proc => { proc with connection := some s.host.count })
          (fun _ => rfl) (fun _ h => h) _ p).single hs
      · cases hstep
  | register p http tcp =>
      refine iff_of_true ?_ trivial
      unfold State.step at hstep
      dsimp only at hstep
      split at hstep
      · split at hstep
        · cases hstep
          exact (Older.refl _).single hs
        · cases hstep
      · cases hstep
  | exit p =>
      refine iff_of_true ?_ trivial
      cases hstep
      exact (@Older.modify (fun proc => { proc with alive := false }) (fun _ => rfl)
        (fun _ h => absurd h Bool.false_ne_true) _ p).single hs
  | disconnect id waited =>
      refine iff_of_true ?_ trivial
      cases hstep
      unfold State.onDisconnect
      have hend : ∀ pid, Older s.processes (s.processes.map (State.endProcess pid)) := by
        refine fun pid => Older.map (fun x => ?_) (fun x => ?_) _
        · unfold State.endProcess
          split <;> rfl
        · unfold State.endProcess
          split
          · exact fun h => absurd h Bool.false_ne_true
          · exact fun h => h
      split
      · exact (hend _).single hs
      · exact (Older.refl _).single hs

end

/-- There is at most one process for each label in all states of a run exactly if all its steps
fit. -/
theorem single_iff {label : Label} {onboarded : Bool} {t : State} {es : List Event}
    (hrun : machine.run (.start label onboarded) es = some t) :
    (∀ u, machine.Visits (.start label onboarded) es u → u.Single) ↔
      machine.Steps Fits (.start label onboarded) es := by
  refine Machine.visits_iff_steps (fun _ _ _ hs hstep => single_step hs hstep) ?_ hrun
  intro p q x y hx
  cases hx

/-- A launch of the proxy `label`. -/
def launchOf (label : Label) : Launch := ⟨false, label, .info, none⟩

/-- A second launch is refused when the first process has registered. -/
def launchTwice : List Event :=
  [.launch (launchOf ⟨[.str "a"]⟩) (some 7), .connect 0, .register 0 "" "",
    .launch (launchOf ⟨[.str "a"]⟩) (some 8)]

theorem single_launchTwice : ∃ t, machine.run (.start ⟨[.str "h"]⟩ false) launchTwice = some t ∧
    t.processes.length = 1 ∧
    ∀ u, machine.Visits (.start ⟨[.str "h"]⟩ false) launchTwice u → u.Single := by
  refine ⟨_, rfl, rfl, (@single_iff _ _ _ launchTwice rfl).mpr ?_⟩
  refine ⟨Or.inl (fun x hx => by cases hx), fun _ h => ?_⟩
  cases h
  refine ⟨trivial, fun _ h => ?_⟩
  cases h
  refine ⟨trivial, fun _ h => ?_⟩
  cases h
  exact ⟨Or.inr ⟨rfl, 0, _, rfl, by decide⟩, fun _ _ => trivial⟩

/-- Two launches for one label, before the first process has registered: two processes. -/
theorem single_fails :
    ∃ t, machine.run (.start ⟨[.str "h"]⟩ false) [.launch (launchOf ⟨[.str "a"]⟩) (some 7),
        .connect 0, .launch (launchOf ⟨[.str "a"]⟩) (some 8)] = some t ∧
      t.processes.map (fun x => (x.label, x.alive)) =
        [(⟨[.str "a"]⟩, true), (⟨[.str "a"]⟩, true)] ∧ ¬ t.Single := by
  refine ⟨_, rfl, rfl, fun h => ?_⟩
  have heq := h 0 1 _ _ rfl rfl rfl rfl rfl
  cases heq

end Armour.Host.Launching
