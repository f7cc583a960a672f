import RegisterMachine.Proofs.Turns

/-! Reachable configurations: whatever the host asks for and whatever its functions do, from a machine as
it is set up. Tokens are cancelled by the host while no question waits, and by its functions at any time; that another
thread cancels one in the midst of a run is left out. -/
namespace RegisterMachine

def Machine.acted (m : Machine) (acts : List Action) : Machine := acts.foldl (fun m a => (a.apply m).2) m

/-- A function that calls one of the globals, and returns all that it gives. -/
def Prototype.calling (name : String) : Prototype where
  name := "main"
  source := "main"
  window := 1
  code := #[.abc .getTabUp 0 (.register 0) (.constant 0), .abc .call 0 (.register 1) (.register 0),
    .abc .ret 0 (.register 0) (.register 0)]
  constants := #[.str name]
  captures := #[⟨"globals", true, 0⟩]

namespace Config

open Machine

/-- What comes next: a step of the machine, or what the host does while no question waits. -/
inductive Leads (host : Host) : Config → Config → Prop
  | next {c c' : Config} : Next host c c' → Leads host c c'
  | ask {r : Except Fault Reply} {m : Machine} (q : Query) :
      Leads host (.answer r m []) (ask host q m [])
  | act {r : Except Fault Reply} {m : Machine} (a : Action) :
      Leads host (.answer r m []) (.answer r (a.apply m).2 [])
  | watch {r : Except Fault Reply} {m : Machine} (hook : Option Hook) (snapshots : Array Snapshot)
      (warnings printed : Array String) (isSinkClosed : Bool) (notes : Array (List Value)) :
      Leads host (.answer r m [])
        (.answer r { m with hook, snapshots, warnings, printed, isSinkClosed, notes } [])

/-- Any number of such steps. -/
abbrev LeadsTo (host : Host) : Config → Config → Prop := Relation.ReflTransGen (Leads host)

/-- The host begins with a machine without anything in it. -/
def initial (limits : Limits) : Config := .answer (.ok {}) (bare limits) []

def Reachable (host : Host) (c : Config) : Prop := ∃ limits, LeadsTo host (initial limits) c

variable {host : Host} {c c' : Config}

theorem Reachable.trans (h : Reachable host c) (h' : LeadsTo host c c') : Reachable host c' := by
  obtain ⟨limits, h⟩ := h
  exact ⟨limits, h.trans h'⟩

theorem leadsTo_of_runs (h : Runs host c c') : LeadsTo host c c' := h.lift id fun _ _ => .next

theorem leadsTo_acted (r : Except Fault Reply) (m : Machine) (acts : List Action) :
    LeadsTo host (.answer r m []) (.answer r (m.acted acts) []) := by
  induction acts generalizing m with
  | nil => exact .refl
  | cons a acts ih => exact (ih (a.apply m).2).head (.act a)

theorem reachable_acted (host : Host) (limits : Limits) (acts : List Action) :
    Reachable host (.answer (.ok {}) ((bare limits).acted acts) []) :=
  ⟨limits, leadsTo_acted (.ok {}) (bare limits) acts⟩

theorem reachable_asked (host : Host) (limits : Limits) (acts : List Action) (q : Query) (n : Nat) :
    Reachable host (steps host n (ask host q ((bare limits).acted acts) [])) :=
  (reachable_acted host limits acts).trans ((leadsTo_of_runs (runs_steps n _)).head (.ask q))

theorem scheduled_move {l l' : List (Ref .coroutine)} {m m' : Machine} (h : Scheduled l m)
    (hm : Move (l, m) (l', m')) : Scheduled l' m' := by
  cases hm with
  | change hc => exact h.same (.change hc)
  | shift hs => exact h.shift hs
  | watch _ _ _ _ _ _ => exact ⟨h.nodup, h.present, h.apart, h.fits⟩

theorem scheduled_moves {st st' : List (Ref .coroutine) × Machine} (h : Scheduled st.1 st.2)
    (hm : Moves st st') : Scheduled st'.1 st'.2 := by
  induction hm with
  | refl => exact h
  | tail _ hm ih => exact scheduled_move ih hm

/-- A configuration in a run from a question at the given machine. -/
structure Good (origin : Machine) (l : List (Ref .coroutine)) (c : Config) : Prop where
  sound : Sound origin c
  scheduled : Scheduled (c.closing l) c.machine

theorem Good.of_goes {origin m : Machine} {l l' : List (Ref .coroutine)} (hs : Scheduled l' m)
    (h : Goes origin l (l', m) c) : Good origin l c := ⟨h.1, scheduled_moves hs h.2⟩

theorem Good.runs {origin : Machine} {l : List (Ref .coroutine)} (h : Good origin l c)
    (hr : Runs host c c') : Good origin l c' := by
  induction hr with
  | refl => exact h
  | tail _ hn ih => exact .of_goes ih.scheduled (goes_next ih.sound ih.scheduled hn)

theorem Good.moves {origin : Machine} {l : List (Ref .coroutine)} (h : Good origin l c)
    (hr : Runs host c c') : Moves (c.closing l, c.machine) (c'.closing l, c'.machine) := by
  induction hr with
  | refl => exact .refl
  | tail hr hn ih =>
    have hg := h.runs hr
    exact ih.trans (goes_next hg.sound hg.scheduled hn).2

theorem Good.rest {origin m m' : Machine} {r : Except Fault Reply} (h : Good origin [] (.answer r m []))
    (hm : Move ([], m) ([], m')) : Good m' [] (.answer r m' []) := by
  obtain ⟨⟨o, -, -, hn⟩, hs⟩ := h
  exact ⟨⟨m', rfl, .refl m', hn⟩, scheduled_move hs hm⟩

theorem Good.leads {origin : Machine} (h : Good origin [] c) (hl : Leads host c c') :
    (∃ origin', Good origin' [] c') ∧ Moves (c.closing [], c.machine) (c'.closing [], c'.machine) := by
  cases hl with
  | next hn =>
    have hg := goes_next h.sound h.scheduled hn
    exact ⟨⟨origin, .of_goes h.scheduled hg⟩, hg.2⟩
  | @ask r m q =>
    have hg : Goes m [] ([], m) (ask host q m []) := goes_ask q rfl h.scheduled
    exact ⟨⟨m, .of_goes h.scheduled hg⟩, hg.2⟩
  | @act r m a =>
    have hm : Move ([], m) ([], (a.apply m).2) := .change (.quiet (.act a))
    exact ⟨⟨_, h.rest hm⟩, .single hm⟩
  | @watch r m hook snapshots warnings printed isSinkClosed notes =>
    have hm := Move.watch (l := []) (m := m) hook snapshots warnings printed isSinkClosed notes
    exact ⟨⟨_, h.rest hm⟩, .single hm⟩

theorem good_initial (limits : Limits) : Good (bare limits) [] (initial limits) := by
  refine ⟨⟨_, rfl, .refl _, noYield_ok _⟩, List.nodup_nil, ?_, ?_, ?_⟩
  · rintro co (h | h) <;> cases h
  · intro co h
    cases h
  · intro co c hc
    cases hc

theorem good_of_leadsTo {origin : Machine} (h : Good origin [] c) (hl : LeadsTo host c c') :
    (∃ origin', Good origin' [] c') ∧ Moves (c.closing [], c.machine) (c'.closing [], c'.machine) := by
  induction hl with
  | refl => exact ⟨⟨origin, h⟩, .refl⟩
  | tail _ hl ih =>
    obtain ⟨⟨origin', h'⟩, hm⟩ := ih
    obtain ⟨hg, hm'⟩ := h'.leads hl
    exact ⟨hg, hm.trans hm'⟩

theorem Reachable.good (h : Reachable host c) : ∃ origin, Good origin [] c := by
  obtain ⟨limits, h⟩ := h
  exact (good_of_leadsTo (good_initial limits) h).1

theorem Reachable.scheduled (h : Reachable host c) : Scheduled (c.closing []) c.machine := by
  obtain ⟨origin, h⟩ := h.good
  exact h.scheduled

theorem Reachable.moves (h : Reachable host c) (hl : LeadsTo host c c') :
    Moves (c.closing [], c.machine) (c'.closing [], c'.machine) := by
  obtain ⟨origin, h⟩ := h.good
  exact (good_of_leadsTo h hl).2

theorem Reachable.answered {r : Except Fault Reply} {m : Machine} {l : Level} {below : List Level}
    (h : Reachable host (.answer r m (l :: below))) : Balanced l.machine m ∧ NoYield r := by
  obtain ⟨origin, hg⟩ := h.good
  obtain ⟨o, ⟨rfl, -⟩, hb, hn⟩ := hg.sound
  exact ⟨hb, hn⟩

section

variable {S : {α : Type} → Stage α → Step α → Prop} {L : Level → Prop}

/-- A property of the computation that goes on, and one of all questions that wait. -/
def Throughout (S : {α : Type} → Stage α → Step α → Prop) (L : Level → Prop) : Config → Prop
  | .work g s below => S g s ∧ ∀ l ∈ below, L l
  | .loop _ _ below => ∀ l ∈ below, L l
  | .answer _ _ below => ∀ l ∈ below, L l

theorem Throughout.level (h : c.Throughout S L) : ∀ l ∈ c.below, L l := by
  cases c with
  | work g s below => exact h.2
  | loop p m below => exact h
  | answer r m below => exact h

theorem throughout_of_startsAt {m : Machine}
    (hbegins : ∀ {m : Machine} {α : Type} {g : Stage α} {s : Step α}, Begins host m g s → S g s)
    (hf : c.StartsAt host m) (hb : ∀ l ∈ c.below, L l) : c.Throughout S L := by
  cases c with
  | work g s below => exact ⟨hbegins hf, hb⟩
  | loop p m below => exact hb
  | answer r m below => exact hb

/-- What holds of all computations that begin and of all steps, then of their questions, and then of what is
done from the answers on, holds throughout. -/
theorem Reachable.throughout
    (hbegins : ∀ {m : Machine} {α : Type} {g : Stage α} {s : Step α}, Begins host m g s → S g s)
    (hstep : ∀ (p : Purpose) (m : Machine), S (.run p true) (Exec.step host p.stop m))
    (hask : ∀ {α : Type} {g : Stage α} {q : Query} {m : Machine}
      {k : Except Fault Reply → Machine → Step α}, S g (.ask q m k) → L ⟨g, q, m, k⟩)
    (hanswer : ∀ {l : Level} {r : Except Fault Reply} {m : Machine},
      L l → Balanced l.machine m → NoYield r → S l.stage (l.next r m))
    (h : Reachable host c) : c.Throughout S L := by
  obtain ⟨limits, h⟩ := h
  induction h with
  | refl => exact fun _ hl => nomatch hl
  | tail hl hlead ih =>
    cases hlead with
    | next hn =>
      obtain ⟨origin, hg⟩ := Reachable.good ⟨limits, hl⟩
      obtain ⟨r, m, l, low, rfl, rfl⟩ | ⟨p, m, low, rfl, rfl⟩ | ⟨m', -, hf⟩ :=
        turns_next (l := []) hg.sound hn
      · obtain ⟨hb, hr⟩ := Reachable.answered ⟨limits, hl⟩
        refine ⟨hanswer (ih.level l List.mem_cons_self) hb hr, fun l' hl' => ?_⟩
        exact ih.level l' (List.mem_cons_of_mem l hl')
      · exact ⟨hstep p m, ih⟩
      · refine throughout_of_startsAt hbegins hf fun l hl => ?_
        obtain ⟨r, m, l', low, rfl, rfl⟩ | hb | ⟨α, g, q, m, k, hc, hb⟩ := below_next hn
        · exact ih.level l (List.mem_cons_of_mem l' hl)
        · exact ih.level l (hb ▸ hl)
        · rw [hb] at hl
          obtain rfl | hl := List.mem_cons.1 hl
          · rw [hc] at ih
            exact hask ih.1
          · exact ih.level l hl
    | @ask r m q =>
      obtain ⟨m', -, hf⟩ : Turns host [] (closings [] []) m (ask host q m []) := turns_ask q
      refine throughout_of_startsAt hbegins hf fun l hl => ?_
      rw [below_ask] at hl
      cases hl
    | act a => exact ih
    | watch hook snapshots warnings printed isSinkClosed notes => exact ih

end

theorem reachable_create (host : Host) (limits : Limits) :
    Reachable host (.answer (.ok {}) (Machine.create limits) []) := by
  have hone : ∀ (libraries : List (String × Ref .table)) (m : Machine) (n : Native),
      LeadsTo host (.answer (.ok {}) m [])
        (.answer (.ok {}) (Registry.installOne (libraries, m) n).2 []) := by
    intro libraries m n
    have hnew : Leads host (.answer (.ok {}) m [])
        (.answer (.ok {}) (Action.apply m (.newNative n)).2 []) := .act _
    unfold Registry.installOne
    dsimp only
    split
    · exact (Relation.ReflTransGen.single hnew).tail (.act (.setField m.globals (.ofString n.name) _))
    · rename_i library _
      split
      · rename_i t _
        exact (Relation.ReflTransGen.single hnew).tail
          (.act (.setField t (.ofString (Native.shortNameOf n.name)) _))
      · exact (((Relation.ReflTransGen.single hnew).tail (.act .newTable)).tail
          (.act (.setField m.globals (.ofString library) _))).tail
            (.act (.setField _ (.ofString (Native.shortNameOf n.name)) _))
  have hall : ∀ (ns : List Native) (libraries : List (String × Ref .table)) (m : Machine),
      LeadsTo host (.answer (.ok {}) m [])
        (.answer (.ok {}) (ns.foldl Registry.installOne (libraries, m)).2 []) := by
    intro ns
    induction ns with
    | nil => exact fun _ _ => .refl
    | cons n ns ih => exact fun libraries m => (hone libraries m n).trans (ih _ _)
  exact ⟨limits, hall _ _ _⟩

/-- Questions are answered with the schedule kept, and nothing else moved. -/
theorem balanced_of_serve {l : List (Ref .coroutine)} {time : Nat} {q : Query} {m m' : Machine}
    {r : Except Fault Reply} (hs : Scheduled l m) (h : serve host time q m = some (r, m')) :
    Balanced m m' ∧ NoYield r ∧ Scheduled l m' := by
  have hruns := served_serve time q m r m' [] h
  have hgood : Good m l (ask host q m []) := .of_goes hs (goes_ask q rfl hs)
  obtain ⟨⟨o, ho, hb, hn⟩, hs'⟩ := hgood.runs hruns
  obtain rfl : o = m := ho
  exact ⟨hb, hn, hs'⟩

/-- Questions are answered by moves, after which as many coroutines are being closed as before. -/
theorem moves_of_serve {l : List (Ref .coroutine)} {time : Nat} {q : Query} {m m' : Machine}
    {r : Except Fault Reply} (hs : Scheduled l m) (h : serve host time q m = some (r, m')) :
    Moves (l, m) (l, m') := by
  have hg : Goes m l (l, m) (ask host q m []) := goes_ask q rfl hs
  exact hg.2.trans ((Good.of_goes hs hg).moves (served_serve time q m r m' [] h))

/-- A computation that is answered within a time comes by moves to the end that it must. -/
theorem moves_of_follows {α : Type} {J : Machine → Prop} {ends : Except Fault α → Machine → Prop}
    {s : Step α} {l : List (Ref .coroutine)} {m m' : Machine} {r : Except Fault α} {time : Nat}
    (h : s.Follows (floor J) ends m) (hs : Scheduled l m) (hr : s.run (serve host time) = some (r, m')) :
    ends r m' ∧ Moves (l, m) (l, m') := by
  induction s generalizing m with
  | ret a m₁ =>
    cases hr
    exact ⟨h.2, moves_of_changes l h.1⟩
  | raise f m₁ =>
    cases hr
    exact ⟨h.2, moves_of_changes l h.1⟩
  | ask q m₁ k ih =>
    obtain ⟨hpath, -, hk⟩ := h
    have hm₁ := moves_of_changes l hpath
    have hs₁ : Scheduled l m₁ := scheduled_moves hs hm₁
    rw [Step.run] at hr
    cases hq : serve host time q m₁ with
    | none =>
      rw [hq] at hr
      cases hr
    | some p =>
      rw [hq] at hr
      obtain ⟨hb, hn, hs₂⟩ := balanced_of_serve hs₁ hq
      obtain ⟨hends, hm⟩ := ih p.1 p.2 (hk p.1 p.2 ⟨hb, hn⟩) hs₂ hr
      exact ⟨hends, (hm₁.trans (moves_of_serve hs₁ hq)).trans hm⟩

/-- The status of a resumed coroutine is known from its place. -/
theorem status_of_mem {l : List (Ref .coroutine)} {m : Machine} {co : Ref .coroutine}
    (h : Scheduled l m) (hco : co ∈ m.active) :
    m.heap.status co = if m.active.head? = some co then .running else .normal := by
  obtain ⟨c, hc⟩ := Option.isSome_iff_exists.1 (h.present co (.inl hco))
  have hf := h.fits co c hc
  have hget : m.heap.status co = c.status := by
    rw [Heap.status, ← Heap.coroutine?, hc]
  rw [hget]
  split
  · rename_i hh
    exact ((Coroutine.fits_of_head hh).1 hf).1
  · rename_i hh
    exact ((Coroutine.fits_of_tail hh hco).1 hf).1

/-- Whatever is asked for at a reachable machine, and however that ends: the same fibers run and wait afterwards, the
same coroutines are resumed, and the outcome is no yield. -/
theorem reentry_balanced (hc : Reachable host c) {time : Nat} {q : Query} {r : Except Fault Reply}
    {m : Machine} (h : serve host time q c.machine = some (r, m)) :
    m.fiber = c.machine.fiber ∧ m.waiting = c.machine.waiting ∧
      m.nativeDepth = c.machine.nativeDepth ∧ m.active = c.machine.active ∧
      (∀ co ∈ m.active, m.heap.status co = c.machine.heap.status co) ∧
      ∀ vs, r ≠ .error (.interrupt (.yield vs)) := by
  obtain ⟨hb, hn, hs⟩ := balanced_of_serve hc.scheduled h
  refine ⟨hb.fiber, hb.waiting, hb.nativeDepth, hb.active, ?_, ?_⟩
  · intro co hco
    have hco' := hco
    rw [hb.active] at hco'
    rw [status_of_mem hs hco, status_of_mem hc.scheduled hco', hb.active]
  · rintro vs rfl
    exact Bool.noConfusion hn.of_error

def due? : Config → Option Query
  | .work _ (.ask q _ _) _ => some q
  | _ => none

/-- A function that ends the program, and one that calls it. -/
def quits : Host
  | "quit", _ => .fail (.interrupt (.exit 7))
  | _, _ => .call (.native ⟨0⟩) []

/-- A coroutine that calls the second one. -/
def quitting : List Action :=
  [.newNative ⟨"quit", .host "quit", 0⟩, .newNative ⟨"leave", .host "leave", 0⟩,
    .setField ⟨0⟩ (.ofString "leave") (.native ⟨1⟩), .load (.calling "leave"), .newCoroutine (.closure ⟨0⟩)]

/-- The program is ended from within a coroutine, by a call of one function of the host by another. -/
theorem reentry_balanced_exit :
    let q : Query := .call (.native ⟨0⟩) []
    let c := steps quits 4 (ask quits (.resume ⟨0⟩ []) ((bare ⟨4, 64, 8, 8⟩).acted quitting) [])
    Reachable quits c ∧ c.due? = some q ∧ c.machine.callDepth = 1 ∧ c.machine.nativeDepth = 1 ∧
      c.machine.active = [⟨0⟩] ∧ ∃ m, serve quits 1 q c.machine = some (.error (.interrupt (.exit 7)), m) ∧
        m.fiber = c.machine.fiber ∧ m.waiting = c.machine.waiting ∧ m.nativeDepth = 1 ∧ m.active = [⟨0⟩] ∧
        m.heap.status ⟨0⟩ = c.machine.heap.status ⟨0⟩ := by
  intro q c
  have hc : Reachable quits c := reachable_asked quits _ quitting _ 4
  have hdepth : c.machine.nativeDepth = 1 := by decide +kernel
  have hactive : c.machine.active = [⟨0⟩] := by decide +kernel
  obtain ⟨m, h⟩ : ∃ m, serve quits 1 q c.machine = some (.error (.interrupt (.exit 7)), m) :=
    Outcome.eq_error_of_failure? (by decide +kernel)
  obtain ⟨hfiber, hwaiting, hn, ha, hstatus, -⟩ := reentry_balanced hc h
  rw [hdepth] at hn
  rw [hactive] at ha
  refine ⟨hc, by decide +kernel, by decide +kernel, hdepth, hactive, m, h, hfiber, hwaiting, hn, ha, ?_⟩
  exact hstatus ⟨0⟩ (ha ▸ List.mem_cons_self)

end Config
end RegisterMachine
