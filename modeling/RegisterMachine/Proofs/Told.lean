import RegisterMachine.Proofs.Telling

/-! Runs that tell. The configurations are those of the machine with telling computations in them, and
every run of the machine is one of them with what was told left out. Over a whole run the tally is kept,
so every mark is handed to the handlers once, and none twice. -/
namespace RegisterMachine

open Machine Exec

/-- A question that waits for its answer. -/
structure TellingLevel : Type 1 where
  {α : Type}
  stage : Stage α
  query : Query
  machine : Machine
  next : Except Fault Reply → Machine → Telling α

def TellingLevel.erase (l : TellingLevel) : Level :=
  ⟨l.stage, l.query, l.machine, fun r m => (l.next r m).erase⟩

inductive TellingConfig : Type 1
  | work {α : Type} (g : Stage α) (t : Telling α) (below : List TellingLevel)
  | loop (p : Purpose) (m : Machine) (below : List TellingLevel)
  | answer (r : Except Fault Reply) (m : Machine) (below : List TellingLevel)

/-- A configuration with nothing to tell, above questions that wait. -/
def Config.onto (below : List TellingLevel) : Config → TellingConfig
  | .work g s _ => .work g (.silent s) below
  | .loop p m _ => .loop p m below
  | .answer r m _ => .answer r m below

namespace TellingConfig

/-- The configuration with what is told left out. -/
def erase : TellingConfig → Config
  | .work g t below => .work g t.erase (below.map TellingLevel.erase)
  | .loop p m below => .loop p m (below.map TellingLevel.erase)
  | .answer r m below => .answer r m (below.map TellingLevel.erase)

def machine (c : TellingConfig) : Machine := c.erase.machine

/-- What was told on the way to this configuration from the one before. -/
def told : TellingConfig → List Event
  | .work _ t _ => t.events
  | .loop _ _ _ => []
  | .answer _ _ _ => []

variable (host : Host)

/-- What follows when a stage is over: only unwinding has something to tell. -/
def finish {α : Type} (g : Stage α) (r : Except Fault α) (m : Machine) (below : List TellingLevel) :
    TellingConfig :=
  match g, r with
  | .run p true, .error f => .work (.run p false) ((Teller.unwind p.stop f m).bind (.raise [])) below
  | g, r => (Config.finish host g r m []).onto below

/-- A question is asked: only closing a coroutine has something to tell. -/
def ask (q : Query) (m : Machine) (below : List TellingLevel) : TellingConfig :=
  match q with
  | .close co =>
    match m.heap.coroutine? co with
    | some ⟨_, some fiber, .suspended, token, _⟩ =>
      if fiber.calls.depth = 0 then (Config.ask host q m []).onto below
      else .work (.close co token)
        (Teller.closeFrames none fiber.calls.depth ((m.park co none).switchTo fiber)) below
    | _ => (Config.ask host q m []).onto below
  | q => (Config.ask host q m []).onto below

def next : TellingConfig → Option TellingConfig
  | .work g (.ret _ a m) below => some (finish host g (.ok a) m below)
  | .work g (.raise _ f m) below => some (finish host g (.error f) m below)
  | .work g (.ask _ q m k) below => some (ask host q m (⟨g, q, m, k⟩ :: below))
  | .loop p m below => some (.work (.run p true) (Teller.step host p.stop m) below)
  | .answer r m (l :: below) => some (.work l.stage (l.next r m) below)
  | .answer _ _ [] => none

variable {host}

theorem erase_onto_leave (p : Purpose) (r : Except Fault (List Value)) (m : Machine)
    (below : List TellingLevel) : ((Config.leave p r m []).onto below).erase =
      Config.leave p r m (below.map TellingLevel.erase) := by
  cases p <;> rfl

theorem erase_onto_start (co : Ref .coroutine) (entry : Callee) (args : List Value) (m : Machine)
    (below : List TellingLevel) : ((Config.start host co entry args m []).onto below).erase =
      Config.start host co entry args m (below.map TellingLevel.erase) := by
  unfold Config.start
  dsimp only
  split
  · simp only [Config.onto, erase, Telling.erase_silent]
  · simp only [Config.onto, erase, Telling.erase_silent]
  · split <;> simp only [Config.onto, erase, Telling.erase_silent]

theorem erase_onto_finish {α : Type} (g : Stage α) (r : Except Fault α) (m : Machine)
    (below : List TellingLevel) : ((Config.finish host g r m []).onto below).erase =
      Config.finish host g r m (below.map TellingLevel.erase) := by
  cases g with
  | place start count =>
    cases r with
    | ok _ => simp only [Config.finish, Config.onto, erase, Telling.erase_silent]
    | error f => rfl
  | run p guarded =>
    obtain f | _ | vs := r
    · cases guarded with
      | true => simp only [Config.finish, Config.onto, erase, Telling.erase_silent]
      | false => exact erase_onto_leave p _ m below
    · rfl
    · exact erase_onto_leave p _ m below
  | close co token => cases r <;> rfl

theorem erase_onto_ask (q : Query) (m : Machine) (below : List TellingLevel) :
    ((Config.ask host q m []).onto below).erase =
      Config.ask host q m (below.map TellingLevel.erase) := by
  cases q with
  | call f args =>
    simp only [Config.ask]
    split
    · rfl
    · simp only [Config.onto, erase, Telling.erase_silent]
  | resume co args =>
    simp only [Config.ask]
    cases m.heap.coroutine? co with
    | none => rfl
    | some c =>
      obtain ⟨entry, parked, status, token, metatable⟩ := c
      cases status with
      | suspended =>
        dsimp only
        split
        · rfl
        · split
          · rfl
          · cases parked with
            | none => rfl
            | some fiber => exact erase_onto_start co entry args _ below
      | _ => rfl
  | close co =>
    simp only [Config.ask]
    cases m.heap.coroutine? co with
    | none => rfl
    | some c =>
      obtain ⟨entry, parked, status, token, metatable⟩ := c
      cases status with
      | suspended =>
        cases parked with
        | none => rfl
        | some fiber =>
          dsimp only
          split
          · rfl
          · simp only [Config.onto, erase, Telling.erase_silent]
      | _ => rfl

theorem erase_finish {α : Type} (g : Stage α) (r : Except Fault α) (m : Machine)
    (below : List TellingLevel) : (finish host g r m below).erase =
      Config.finish host g r m (below.map TellingLevel.erase) := by
  unfold finish
  split
  · rename_i p f
    show Config.work (.run p false) _ _ = .work (.run p false) _ _
    rw [Telling.erase_bind, Teller.reads_unwind]
    rfl
  · exact erase_onto_finish _ _ m below

theorem erase_ask (q : Query) (m : Machine) (below : List TellingLevel) :
    (ask host q m below).erase = Config.ask host q m (below.map TellingLevel.erase) := by
  unfold ask
  split
  · rename_i co
    split
    · rename_i entry fiber token metatable hc
      split
      · exact erase_onto_ask _ m below
      · rename_i hd
        simp only [Config.ask, hc, hd, if_false]
        exact congrArg (Config.work (.close co token) · _) (Teller.reads_closeFrames _ _ _)
    · exact erase_onto_ask _ m below
  · exact erase_onto_ask _ m below

theorem erase_next (c : TellingConfig) : (next host c).map erase = Config.next host c.erase := by
  cases c with
  | work g t below =>
    cases t with
    | ret es a m => exact congrArg some (erase_finish g _ m below)
    | raise es f m => exact congrArg some (erase_finish g _ m below)
    | ask es q m k => exact congrArg some (erase_ask q m _)
  | loop p m below =>
    exact congrArg (fun s => some (Config.work (.run p true) s _)) (Teller.reads_step host p.stop m)
  | answer r m below =>
    cases below with
    | nil => rfl
    | cons l below => rfl

end TellingConfig

/-- What was told in a run from the beginning on. The host may ask questions, act and watch while no
question waits. -/
inductive Told (host : Host) : List Event → TellingConfig → Prop
  | initial (limits : Limits) : Told host [] (.answer (.ok {}) (bare limits) [])
  | next {log : List Event} {c c' : TellingConfig} : Told host log c →
      TellingConfig.next host c = some c' → Told host (log ++ c'.told) c'
  | ask {log : List Event} {r : Except Fault Reply} {m : Machine} (q : Query) :
      Told host log (.answer r m []) →
      Told host (log ++ (TellingConfig.ask host q m []).told) (TellingConfig.ask host q m [])
  | act {log : List Event} {r : Except Fault Reply} {m : Machine} (a : Action) :
      Told host log (.answer r m []) → Told host log (.answer r (a.apply m).2 [])
  | watch {log : List Event} {r : Except Fault Reply} {m : Machine} (hook : Option Hook)
      (snapshots : Array Snapshot) (warnings printed : Array String) (isSinkClosed : Bool)
      (notes : Array (List Value)) : Told host log (.answer r m []) →
      Told host log (.answer r { m with hook, snapshots, warnings, printed, isSinkClosed, notes } [])

variable {host : Host} {log : List Event} {c : TellingConfig}

theorem Told.reachable (h : Told host log c) : Config.Reachable host c.erase := by
  induction h with
  | initial limits => exact ⟨limits, .refl⟩
  | @next log c c' _ hn ih =>
    have herase : Config.next host c.erase = some c'.erase := by
      rw [← TellingConfig.erase_next, hn]
      rfl
    exact ih.trans (.single (.next herase))
  | ask q _ ih =>
    rw [TellingConfig.erase_ask]
    exact ih.trans (.single (.ask q))
  | act a _ ih => exact ih.trans (.single (.act a))
  | watch _ _ _ _ _ _ _ ih => exact ih.trans (.single (.watch _ _ _ _ _ _))

theorem TellingConfig.eq_of_erase_answer {r : Except Fault Reply} {m : Machine}
    (h : c.erase = .answer r m []) : c = .answer r m [] := by
  cases c with
  | work g t below => cases h
  | loop p m below => cases h
  | answer r' m' below =>
    cases below with
    | nil =>
      cases h
      rfl
    | cons l below => cases h

theorem exists_told {c : Config} (h : Config.Reachable host c) :
    ∃ log tc, Told host log tc ∧ tc.erase = c := by
  obtain ⟨limits, h⟩ := h
  induction h with
  | refl => exact ⟨[], _, .initial limits, rfl⟩
  | tail _ hl ih =>
    obtain ⟨log, tc, ht, he⟩ := ih
    cases hl with
    | next hn =>
      subst he
      have hmap : (TellingConfig.next host tc).map TellingConfig.erase = _ := TellingConfig.erase_next tc
      rw [hn] at hmap
      obtain ⟨tc', hn', he'⟩ := Option.map_eq_some_iff.1 hmap
      exact ⟨_, tc', ht.next hn', he'⟩
    | ask q =>
      obtain rfl := TellingConfig.eq_of_erase_answer he
      exact ⟨_, _, ht.ask q, TellingConfig.erase_ask q _ []⟩
    | act a =>
      obtain rfl := TellingConfig.eq_of_erase_answer he
      exact ⟨_, _, ht.act a, rfl⟩
    | watch hook snapshots warnings printed isSinkClosed notes =>
      obtain rfl := TellingConfig.eq_of_erase_answer he
      exact ⟨_, _, ht.watch hook snapshots warnings printed isSinkClosed notes, rfl⟩

/-- Goes on from every answer with the tally kept. -/
def TellingLevel.Counts (l : TellingLevel) : Prop := ∀ r m, (l.next r m).Counts m

def Config.Calm (m : Machine) : Config → Prop
  | .work _ s _ => s.Follows still (fun _ _ => True) m
  | .loop _ m' _ => m'.marks = m.marks
  | .answer _ m' _ => m'.marks = m.marks

namespace TellingConfig

/-- All that waits for answers keeps the tally. -/
def Counts : TellingConfig → Prop
  | .work _ t below => (∀ es q m k, t = .ask es q m k → ∀ r m, (k r m).Counts m) ∧
      ∀ l ∈ below, l.Counts
  | .loop _ _ below => ∀ l ∈ below, l.Counts
  | .answer _ _ below => ∀ l ∈ below, l.Counts

/-- The tally is kept on the way to a configuration, and from there on. -/
structure Reached (m : Machine) (c : TellingConfig) : Prop where
  counts : c.Counts
  tally : Tally m c.told c.machine

variable {l : List (Ref .coroutine)} {m m' o b : Machine} {below : List TellingLevel} {α : Type}

theorem Reached.after {c : TellingConfig} (h : m'.marks.Perm m.marks) (hr : Reached m' c) :
    Reached m c := ⟨hr.counts, (Tally.of_perm h).trans hr.tally⟩

section

variable (hb : ∀ l ∈ below, l.Counts)

include hb

theorem reached_work (g : Stage α) {t : Telling α} (ht : t.Counts m) :
    Reached m (.work g t below) := by
  cases t with
  | ret es a m' => exact ⟨⟨fun _ _ _ _ h => (nomatch h), hb⟩, ht⟩
  | raise es f m' => exact ⟨⟨fun _ _ _ _ h => (nomatch h), hb⟩, ht⟩
  | ask es q m' k =>
    refine ⟨⟨fun _ _ _ _ h => ?_, hb⟩, ht.1⟩
    cases h
    exact ht.2

theorem reached_onto {c : Config} (hc : c.Calm m) : Reached m (c.onto below) := by
  cases c with
  | work g s _ => exact reached_work hb g (Telling.counts_silent hc)
  | loop p m' _ => exact ⟨hb, .of_perm (.of_eq hc)⟩
  | answer r m' _ => exact ⟨hb, .of_perm (.of_eq hc)⟩

theorem reached_leave (hs : Scheduled l m) {p : Purpose} {r : Except Fault (List Value)}
    (ho : p.Opens o b) (h : (Stage.run p false).Ends b (r.map some) m) :
    Reached m ((Config.leave p r m []).onto below) := by
  have hshift := marks_shift hs (Config.shift_leave ho h [])
  cases p with
  | call stop top => exact .after hshift (reached_onto (c := .answer _ _ []) hb rfl)
  | resume co => exact .after hshift (reached_onto (c := .answer _ _ []) hb rfl)

theorem reached_finish {g : Stage α} {r : Except Fault α} (ho : g.Opens o b) (h : g.Ends b r m)
    (hs : Scheduled (g.closing ++ l) m) : Reached m (finish host g r m below) := by
  cases g with
  | place start count =>
    cases r with
    | ok _ =>
      have hbegin := (Exec.Along.begin bears_sameMarks host start count none m.enterCall).mono (m := m) rfl
      exact reached_onto (c := Config.finish host (.place start count) (.ok ()) m []) hb hbegin
    | error f => exact reached_onto (c := .answer (.error f) m []) hb rfl
  | run p guarded =>
    cases r with
    | error f =>
      cases guarded with
      | true =>
        refine reached_work hb (.run p false) ?_
        exact Telling.counts_bind (Teller.counts_unwind p.stop f m) fun _ _ => .of_perm (.refl _)
      | false => exact reached_leave hb hs ho (r := .error f) h
    | ok v =>
      have heq : finish host (.run p guarded) (.ok v) m below =
          (Config.finish host (.run p guarded) (.ok v) m []).onto below := by
        cases guarded <;> rfl
      rw [heq]
      cases v with
      | none => exact reached_onto (c := .loop p m []) hb rfl
      | some vs => exact reached_leave hb hs ho (r := .ok vs) h
  | close co token =>
    cases r with
    | ok failure =>
      obtain ⟨⟨ha, hd⟩, -⟩ := h
      have hframes : m.fiber.calls.frames = [] := by rw [ha.calls_eq hd, Stage.Closing.calls ho]
      have hshift := marks_shift hs (.closed token failure (ha.waiting.trans ho.waiting) hframes)
      exact .after hshift (reached_onto (c := .answer _ _ []) hb rfl)
    | error f => exact h.elim

theorem reached_start (co : Ref .coroutine) (entry : Callee) (args : List Value) :
    Reached m ((Config.start host co entry args m []).onto below) := by
  refine reached_onto hb ?_
  have hq := bears_sameMarks.toQuiets
  unfold Config.start
  dsimp only
  generalize hm₀ : m.modifyFiber (fun f => { f with pending := none }) = m₀
  have hm : m₀.marks = m.marks := by
    rw [← hm₀]
    rfl
  split
  · refine (((Exec.Along.closed hq).placeResults _ _ _ m₀).bind (fun _ m' _ => ?_) fun _ _ h => h).mono hm
    exact ⟨rfl, trivial⟩
  · exact ⟨hm, trivial⟩
  · split
    · refine ((Exec.Along.invokeNative hq host _ args m₀).handle fun r m' _ => ?_).mono hm
      split
      · exact ⟨rfl, trivial⟩
      · exact ⟨rfl, trivial⟩
      · exact ⟨rfl, trivial⟩
    · rename_i r
      have hstart : Still Unit (do
          Exec.setSlot 0 (.closure r)
          Exec.writeRange 1 args
          Exec.pushFrame r 0 args.length none) :=
        .bind (.write hq (.put _ _)) fun _ => .bind (.write hq (.putRange _ _)) fun _ =>
          .pushFrame bears_sameMarks _ _ _ _
      refine ((hstart m₀).bind (fun _ m' _ => ?_) fun _ _ h => h).mono hm
      exact ⟨rfl, trivial⟩

theorem reached_ask (q : Query) (hs : Scheduled l m) : Reached m (ask host q m below) := by
  -- many questions are answered at once, with nothing changed
  have hback : ∀ r, Reached m ((Config.answer r m []).onto below) := fun r => reached_onto hb rfl
  have hq := bears_sameMarks.toQuiets
  cases q with
  | call f args =>
    have hplace : Still Unit (do
        Exec.setSlot m.fiber.freeSlot f
        Exec.writeRange (m.fiber.freeSlot + 1) args) :=
      .bind (.write hq (.put _ _)) fun _ => .write hq (.putRange _ _)
    show Reached m ((Config.ask host (.call f args) m []).onto below)
    simp only [Config.ask]
    split
    · exact hback _
    · exact reached_onto hb (hplace m)
  | resume co args =>
    show Reached m ((Config.ask host (.resume co args) m []).onto below)
    simp only [Config.ask]
    split
    · exact hback _
    · rename_i c hc
      split
      · exact hback _
      · exact hback _
      · exact hback _
      · rename_i hst
        split
        · exact reached_onto (c := .answer _ _ []) hb (marks_setStatus m co .dead)
        · split
          · exact hback _
          · split
            · exact hback _
            · rename_i fiber hp
              have hmarks : (m.enterCoroutine co fiber).marks.Perm m.marks := by
                rw [marks_enterCoroutine]
                exact (marks_perm_of_take hc hp).symm
              exact .after hmarks (reached_start hb co c.entry args)
  | close co =>
    cases hc : m.heap.coroutine? co with
    | none =>
      simp only [ask, hc, Config.ask]
      exact hback _
    | some c =>
      obtain ⟨entry, parked, status, token, metatable⟩ := c
      cases status with
      | suspended =>
        have hdiscard : (∀ fiber, parked = some fiber → fiber.calls.frames = []) → Reached m
            ((Config.answer ((m.park co none).endClosing co token none).1
              ((m.park co none).endClosing co token none).2 []).onto below) := fun hf =>
          .after (marks_shift hs (.discard token hc rfl hf)) (reached_onto hb rfl)
        cases parked with
        | none =>
          simp only [ask, hc, Config.ask]
          exact hdiscard fun _ h => nomatch h
        | some fiber =>
          by_cases hd : fiber.calls.depth = 0
          · simp only [ask, hc, Config.ask, hd, if_true]
            refine hdiscard fun fiber' hf => ?_
            cases hf
            rw [fiber.calls.depth_eq] at hd
            exact List.length_eq_zero_iff.1 hd
          · simp only [ask, hc, hd, if_false]
            have hshift := marks_shift hs (.close hc rfl rfl)
            exact .after hshift (reached_work hb _ (Teller.counts_closeFrames _ _ _))
      | _ =>
        simp only [ask, hc, Config.ask]
        exact hback _

end

theorem reached_next {origin : Machine} {c c' : TellingConfig} (hc : c.Counts)
    (hg : Config.Good origin l c.erase) (hn : next host c = some c') : Reached c.machine c' := by
  obtain ⟨hsound, hs⟩ := hg
  cases c with
  | work g t below =>
    obtain ⟨o, b, -, ho, hf⟩ := hsound
    obtain ⟨hk, hb⟩ := hc
    cases t with
    | ret es a m =>
      cases hn
      exact reached_finish hb ho hf.2 hs
    | raise es f m =>
      cases hn
      exact reached_finish hb ho hf.2 hs
    | ask es q m k =>
      cases hn
      refine reached_ask (fun l hl => ?_) q hs
      obtain rfl | hl := List.mem_cons.1 hl
      · exact hk es q m k rfl
      · exact hb l hl
  | loop p m below =>
    cases hn
    exact reached_work hc (.run p true) (Teller.counts_step host p.stop m)
  | answer r m below =>
    cases below with
    | nil => cases hn
    | cons lev below =>
      cases hn
      have hb : ∀ l ∈ below, l.Counts := fun l hl => hc l (List.mem_cons_of_mem lev hl)
      exact reached_work hb lev.stage (hc lev List.mem_cons_self r m)

end TellingConfig

theorem Told.tally (h : Told host log c) : c.Counts ∧ ∃ limits, Tally (bare limits) log c.machine := by
  induction h with
  | initial limits => exact ⟨fun _ h => (nomatch h), limits, .of_perm (.refl _)⟩
  | next ht hn ih =>
    obtain ⟨hc, limits, hl⟩ := ih
    obtain ⟨origin, hg⟩ := ht.reachable.good
    obtain ⟨hc', hl'⟩ := TellingConfig.reached_next hc hg hn
    exact ⟨hc', limits, hl.trans hl'⟩
  | ask q ht ih =>
    obtain ⟨hc, limits, hl⟩ := ih
    obtain ⟨hc', hl'⟩ := TellingConfig.reached_ask hc q ht.reachable.scheduled
    exact ⟨hc', limits, hl.trans hl'⟩
  | act a _ ih =>
    obtain ⟨hc, limits, hl⟩ := ih
    have hact := hl.trans (.of_perm (.of_eq (marks_quiet (.act a))))
    rw [List.append_nil] at hact
    exact ⟨hc, limits, hact⟩
  | watch _ _ _ _ _ _ _ ih =>
    obtain ⟨hc, limits, hl⟩ := ih
    exact ⟨hc, limits, hl.count, hl.upTo, hl.proper⟩

end RegisterMachine
