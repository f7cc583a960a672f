import RegisterMachine.Proofs.Natives
import RegisterMachine.Proofs.Reachable

/-! Exits. An exit goes up through all the questions that wait when it is raised. At each of them frames
are unwound, which calls handlers; the exit stays on its way unless a handler fails with something
else. -/
namespace RegisterMachine

open Machine Exec

def Stage.Hands : {α : Type} → Stage α → Fault → Except Fault α → Prop
  | _, .place _ _ => Raised
  | _, .run _ _ => Raised
  | _, .close _ _ => Noted

/-- A question for which an exit is on its way once it is the answer. -/
def Level.Clear (l : Level) : Prop :=
  ∀ r m, Balanced l.machine m → NoYield r → (l.next r m).Transparent l.stage.Hands ∧
    ∀ status, r = .error (.exit status) → (l.next r m).Tracks l.stage.Hands (.exit status)

namespace Config

variable {host : Host} {α : Type} {below : List Level} {m : Machine} {c c' : Config}

section

variable (hh : host.HandsOn)

include hh

theorem transparent_of_begins {m : Machine} {g : Stage α} {s : Step α} (h : Begins host m g s) :
    s.Transparent g.Hands := by
  cases h with
  | place start f args m =>
    exact handsOn_bind (handsOn_closed.setSlot _ _) (fun _ => handsOn_closed.writeRange _ _) m
  | call p start count m => exact (strict_begin hh start count none).handsOn m
  | unwind p f m => exact (unwind_tracks p.stop m (.refl f)).transparent
  | resumed p start wanted args m => exact (handsOn_closed.placeResults _ _ _ _).bind fun _ _ => trivial
  | yielded p args m => trivial
  | native p r args m =>
    refine ((strict_invokeNative hh r args _).handle (fun result m' => ?_) fun _ _ => rfl).transparent
    unfold entryOutcome
    split <;> trivial
  | closure p r args m =>
    exact ((handsOn_onFrames hh).enter r args m).bind fun _ _ => trivial
  | close co token m => exact closeFrames_transparent _ (Nat.le_refl _)

theorem Reachable.clear (h : Reachable host c) : ∀ l ∈ c.below, l.Clear := by
  have h : c.Throughout (fun g s => s.Transparent g.Hands) Level.Clear :=
    h.throughout (transparent_of_begins hh) (fun p m => (handsOn_onFrames hh).step p.stop m) (fun h => h)
      fun hl hb hr => (hl _ _ hb hr).1
  exact h.level

end

/-- The way of an exit from where it is raised: the number of questions below the one that it has got to, and the fault
on its way there, the exit or that of the last handler that failed. -/
inductive Trail (host : Host) (status : Int32) (c₀ : Config) : Nat → Fault → Config → Prop
  | start : Trail host status c₀ c₀.below.length (.exit status) c₀
  | step {h : Nat} {f : Fault} {c c' : Config} : Trail host status c₀ h f c →
      (∀ r m below, c = .answer r m below → h + 1 < below.length) → Next host c c' →
      Trail host status c₀ h f c'
  | handled {f : Fault} {r : Except Fault Reply} {m : Machine} {l : Level} {low : List Level} :
      Trail host status c₀ low.length f (.answer r m (l :: low)) →
      Trail host status c₀ low.length (f.after r) (.work l.stage (l.next r m) low)
  | down {f : Fault} {r : Except Fault Reply} {m : Machine} {l : Level} {low : List Level} :
      Trail host status c₀ (low.length + 1) f (.answer r m (l :: low)) → f.isExit = true →
      Trail host status c₀ low.length f (.work l.stage (l.next r m) low)

/-- The fault is on its way at the question that the exit has got to. -/
def Carries (f : Fault) : Config → Prop
  | .work g s _ => s.Tracks g.Hands f
  | .loop _ _ _ => False
  | .answer r _ _ => Raised f r

/-- A handler was asked for, and the fault will be on its way once it has answered. -/
def Pends (h : Nat) (f : Fault) (c₀ c : Config) : Prop :=
  ∃ upper l low, c.below = upper ++ l :: low ∧ low.length = h ∧ low <:+ c₀.below ∧
    ∀ r m, Balanced l.machine m → NoYield r → (l.next r m).Tracks l.stage.Hands (f.after r)

structure OnWay (h : Nat) (f : Fault) (c₀ c : Config) : Prop where
  noYield : f.isYield = false
  place : (c.below.length = h ∧ c.below <:+ c₀.below ∧ Carries f c) ∨ Pends h f c₀ c

theorem suffix_next (hn : Next host c c') (ha : ∀ r m below, c ≠ .answer r m below) :
    c.below <:+ c'.below := by
  obtain ⟨r, m, l, low, hc, -⟩ | hb | ⟨α, g, q, m, k, -, hb⟩ := below_next hn
  · exact absurd hc (ha r m _)
  · exact hb ▸ List.suffix_refl _
  · exact hb ▸ List.suffix_cons _ _

variable {h : Nat} {f : Fault} {c₀ : Config}

theorem withoutYield_error (hf : f.isYield = false) :
    withoutYield (.error f : Except Fault (List Value)) = .error f := by
  unfold withoutYield
  split
  · rename_i h
    cases h
    cases hf
  · rfl

theorem carries_leave {e : Fault} (hf : f.isYield = false) (hl : f.Located e) (p : Purpose)
    (m : Machine) : Carries f (leave p (.error e) m below) := by
  have he : e.isYield = false := hl.isYield_eq.trans hf
  cases p with
  | call stop top =>
    show Raised f ((withoutYield (.error e)).map _)
    rw [withoutYield_error he]
    exact ⟨e, rfl, hl⟩
  | resume co =>
    show Raised f (leaveCoroutine co (.error e) m).1
    rw [leaveCoroutine_error co m he]
    exact ⟨e, rfl, hl⟩

theorem carries_finish {r : Except Fault α} {g : Stage α} (hf : f.isYield = false) (hr : g.Hands f r)
    (m : Machine) : Carries f (finish host g r m below) := by
  cases g with
  | place start count =>
    obtain ⟨e, rfl, hl⟩ := hr
    exact ⟨e, rfl, hl⟩
  | run p guarded =>
    obtain ⟨e, rfl, hl⟩ := hr
    cases guarded with
    | false => exact carries_leave hf hl p m
    | true => exact unwind_tracks p.stop m hl
  | close co token =>
    obtain ⟨e, hl, rfl | rfl⟩ := hr
    · exact ⟨e, rfl, hl⟩
    · exact ⟨e, rfl, hl⟩

theorem Pends.lt (h' : Pends h f c₀ c) : h < c.below.length := by
  obtain ⟨upper, l, low, hb, rfl, -⟩ := h'
  rw [hb, List.length_append, List.length_cons]
  omega

theorem OnWay.le (h' : OnWay h f c₀ c) : h ≤ c.below.length := by
  obtain ⟨-, ⟨hlen, -, -⟩ | hp⟩ := h'
  · exact Nat.le_of_eq hlen.symm
  · exact Nat.le_of_lt hp.lt

theorem Pends.next (h' : Pends h f c₀ c) (hn : Next host c c')
    (ha : ∀ r m below, c = .answer r m below → h + 1 < below.length) : Pends h f c₀ c' := by
  obtain ⟨upper, l, low, hb, hlow, hs, ht⟩ := h'
  by_cases hans : ∃ r m below, c = .answer r m below
  · obtain ⟨r, m, below, rfl⟩ := hans
    have hlen := ha r m below rfl
    obtain rfl : below = upper ++ l :: low := hb
    cases upper with
    | nil =>
      simp only [List.nil_append, List.length_cons] at hlen
      omega
    | cons u upper =>
      cases hn
      exact ⟨upper, l, low, rfl, hlow, hs, ht⟩
  · have hans : ∀ r m below, c ≠ .answer r m below := fun r m below hc => hans ⟨r, m, below, hc⟩
    obtain ⟨new, hnew⟩ := suffix_next hn hans
    refine ⟨new ++ upper, l, low, ?_, hlow, hs, ht⟩
    rw [← hnew, hb, List.append_assoc]

/-- The fault is handed on, or a handler is asked for. -/
theorem onWay_next (hf : f.isYield = false) (hlen : c.below.length = h) (hs : c.below <:+ c₀.below)
    (hc : Carries f c) (hn : Next host c c') (ha : ∀ r m below, c ≠ .answer r m below) :
    OnWay h f c₀ c' := by
  refine ⟨hf, ?_⟩
  cases c with
  | work g s below =>
    cases s with
    | ret a m =>
      cases hn
      rw [below_finish]
      exact .inl ⟨hlen, hs, carries_finish hf hc m⟩
    | raise e m =>
      cases hn
      rw [below_finish]
      exact .inl ⟨hlen, hs, carries_finish hf hc m⟩
    | ask q m k =>
      cases hn
      refine .inr ⟨[], ⟨g, q, m, k⟩, below, ?_, hlen, hs, hc⟩
      rw [below_ask]
      rfl
  | loop p m below => exact hc.elim
  | answer r m below => exact absurd rfl (ha r m below)

/-- An answer gives the fault that is on its way from there. -/
theorem Pends.answered {r : Except Fault Reply} {l : Level} {low : List Level}
    (h' : Pends low.length f c₀ (.answer r m (l :: low))) (hb : Balanced l.machine m)
    (hn : NoYield r) : low <:+ c₀.below ∧ Carries (f.after r) (.work l.stage (l.next r m) low) := by
  obtain ⟨upper, l', low', heq, hlow, hs, ht⟩ := h'
  have hlen := congrArg List.length heq
  cases upper with
  | nil =>
    cases heq
    exact ⟨hs, ht r m hb hn⟩
  | cons u upper =>
    simp only [below, List.length_cons, List.length_append] at hlen
    omega

theorem isYield_after {r : Except Fault Reply} (hf : f.isYield = false) (hr : NoYield r) :
    (f.after r).isYield = false := by
  cases r with
  | ok reply => exact hf
  | error e => exact hr.of_error

theorem eq_exit_of_isExit (hf : f.isExit = true) : ∃ status, f = .exit status := by
  unfold Fault.isExit at hf
  split at hf
  · exact ⟨_, rfl⟩
  · cases hf

theorem error_of_raised_exit {r : Except Fault α} {status : Int32} (h : Raised (.exit status) r) :
    r = .error (.exit status) := by
  obtain ⟨e, rfl, rfl | ⟨m, rfl⟩⟩ := h
  · rfl
  · rfl

theorem Trail.runs {status : Int32} (h' : Trail host status c₀ h f c) : Runs host c₀ c := by
  induction h' with
  | start => exact .refl
  | step _ _ hn ih => exact ih.tail hn
  | handled _ ih => exact ih.tail rfl
  | down _ _ ih => exact ih.tail rfl

/-- An exit that is kept at a question goes on its way. -/
theorem Trail.extend {status : Int32} (h' : Trail host status c₀ h f c) (hw : OnWay h f c₀ c)
    (hkept : ∀ r m b, c = .answer r m b → b.length = h → f.isExit = true) (hn : Next host c c') :
    ∃ h f, Trail host status c₀ h f c' := by
  cases c with
  | work g s below => exact ⟨h, f, h'.step (fun _ _ _ hc => nomatch hc) hn⟩
  | loop p m below => exact ⟨h, f, h'.step (fun _ _ _ hc => nomatch hc) hn⟩
  | answer r m below =>
    have hle : h ≤ below.length := hw.le
    cases below with
    | nil => cases hn
    | cons l low =>
      rw [List.length_cons] at hle
      -- the question itself, a handler's, or one of those asked for the handler is answered
      obtain rfl | rfl | hlt : h = low.length + 1 ∨ h = low.length ∨ h < low.length := by omega
      · cases hn
        exact ⟨_, _, h'.down (hkept r m _ rfl rfl)⟩
      · cases hn
        exact ⟨_, _, h'.handled⟩
      · refine ⟨h, f, h'.step (fun r' m' b hc => ?_) hn⟩
        cases hc
        rw [List.length_cons]
        omega

theorem isExit_iff_of_raised {r : Except Fault α} (h' : Raised f r) :
    (∃ s, r = .error (.exit s)) ↔ f.isExit = true := by
  obtain ⟨e, rfl, hl⟩ := h'
  rw [← hl.isExit_eq]
  constructor
  · rintro ⟨s, hs⟩
    cases hs
    rfl
  · intro he
    obtain ⟨s, rfl⟩ := eq_exit_of_isExit he
    exact ⟨s, rfl⟩

theorem carries_raise (g : Stage α) {e : Fault} (hl : f.Located e) (m : Machine) :
    Carries f (.work g (.raise e m) below) := by
  cases g with
  | place start count => exact ⟨e, rfl, hl⟩
  | run p guarded => exact ⟨e, rfl, hl⟩
  | close co token => exact ⟨e, hl, .inr rfl⟩

theorem OnWay.next (h' : OnWay h f c₀ c) (hn : Next host c c')
    (ha : ∀ r m below, c = .answer r m below → h + 1 < below.length) : OnWay h f c₀ c' := by
  obtain ⟨hf, ⟨hlen, hs, hcar⟩ | hp⟩ := h'
  · refine onWay_next hf hlen hs hcar hn fun r m b hcb => ?_
    subst hcb
    have hlt := ha r m b rfl
    have hlen : b.length = h := hlen
    omega
  · exact ⟨hf, .inr (hp.next hn ha)⟩

theorem OnWay.handled {r : Except Fault Reply} {l : Level} {low : List Level}
    (h' : OnWay low.length f c₀ (.answer r m (l :: low))) (hb : Balanced l.machine m)
    (hr : NoYield r) : OnWay low.length (f.after r) c₀ (.work l.stage (l.next r m) low) := by
  obtain ⟨hf, ⟨hlen, -, -⟩ | hp⟩ := h'
  · simp only [Config.below, List.length_cons] at hlen
    omega
  · obtain ⟨hs, hcar⟩ := hp.answered hb hr
    exact ⟨isYield_after hf hr, .inl ⟨rfl, hs, hcar⟩⟩

theorem OnWay.arrived (h' : OnWay h f c₀ c) (hlen : c.below.length = h) :
    c.below <:+ c₀.below ∧ Carries f c := by
  obtain ⟨-, ⟨-, hs, hcar⟩ | hp⟩ := h'
  · exact ⟨hs, hcar⟩
  · exact absurd hlen (Nat.ne_of_gt hp.lt)

section

variable (hh : host.HandsOn) {g : Stage α} {status : Int32} (hc : Reachable host c₀)
  (h₀ : c₀ = .work g (.raise (.exit status) m) below)

include hh hc h₀

theorem Trail.onWay (h' : Trail host status c₀ h f c) : OnWay h f c₀ c := by
  -- all configurations on the way are reachable, so answers are balanced and levels clear
  have hreach : ∀ {h f c}, Trail host status c₀ h f c → Reachable host c :=
    fun ht => hc.trans (leadsTo_of_runs ht.runs)
  induction h' with
  | start =>
    refine ⟨rfl, .inl ⟨rfl, List.suffix_refl _, ?_⟩⟩
    rw [h₀]
    exact carries_raise g (.refl _) m
  | step _ ha hn ih => exact ih.next hn ha
  | handled ht ih =>
    obtain ⟨hb, hr⟩ := (hreach ht).answered
    exact ih.handled hb hr
  | @down f r m l low ht hexit ih =>
    obtain ⟨hb, hr⟩ := (hreach ht).answered
    obtain ⟨s, rfl⟩ := eq_exit_of_isExit hexit
    obtain ⟨hs, hcar⟩ := ih.arrived rfl
    obtain rfl := error_of_raised_exit hcar
    have hclear := (Reachable.clear hh (hreach ht)) l List.mem_cons_self _ m hb hr
    exact ⟨rfl, .inl ⟨rfl, (List.suffix_cons l low).trans hs, hclear.2 s rfl⟩⟩

/-- Where an exit gets to, no instruction is executed, and the answer is an exit unless a handler failed with another
fault. If it is one everywhere, the host is answered by an exit. -/
theorem exit_handed_on :
    (∀ h f c, Trail host status c₀ h f c → c.below.length = h → c.below <:+ c₀.below ∧
      (∀ p m b, c ≠ .loop p m b) ∧
      ∀ r m b, c = .answer r m b →
        (∃ e, r = .error e ∧ f.Located e) ∧ ((∃ s, r = .error (.exit s)) ↔ f.isExit = true)) ∧
    ((∀ h f r m b, Trail host status c₀ h f (.answer r m b) → b.length = h → f.isExit = true) →
      ∀ c, Runs host c₀ c → (∃ h f, Trail host status c₀ h f c) ∧
        ∀ r m, c = .answer r m [] → ∃ s, r = .error (.exit s)) := by
  have hlevel : ∀ {h f c}, Trail host status c₀ h f c → c.below.length = h →
      c.below <:+ c₀.below ∧ Carries f c := fun ht => (ht.onWay hh hc h₀).arrived
  have hgo : (∀ h f r m b, Trail host status c₀ h f (.answer r m b) → b.length = h →
      f.isExit = true) → ∀ c, Runs host c₀ c → ∃ h f, Trail host status c₀ h f c := by
    intro hkept c hruns
    induction hruns with
    | refl => exact ⟨_, _, .start⟩
    | tail _ hn ih =>
      obtain ⟨h, f, ht⟩ := ih
      refine ht.extend (ht.onWay hh hc h₀) ?_ hn
      rintro r m b rfl hlen
      exact hkept h f r m b ht hlen
  refine ⟨fun h f c ht hlen => ?_, fun hkept c hruns => ?_⟩
  · obtain ⟨hs, hcar⟩ := hlevel ht hlen
    refine ⟨hs, ?_, ?_⟩
    · rintro p m b rfl
      exact hcar
    · rintro r m b rfl
      refine ⟨hcar, isExit_iff_of_raised hcar⟩
  · obtain ⟨h, f, ht⟩ := hgo hkept c hruns
    refine ⟨⟨h, f, ht⟩, ?_⟩
    rintro r m rfl
    have hlen : ([] : List Level).length = h := Nat.le_antisymm (Nat.zero_le h) (ht.onWay hh hc h₀).le
    exact (isExit_iff_of_raised (hlevel ht hlen).2).2 (hkept h f r m [] ht hlen)

end

/-- A protected call of a function that ends the program: the host is answered by an exit. -/
theorem exit_handed_on_pcall :
    let host : Host := fun _ _ => .fail (.exit 7)
    let natives : Machine := (Action.apply (Action.apply (bare ⟨4, 64, 8, 8⟩)
      (.newNative ⟨"pcall", .builtin .pcall, 1⟩)).2 (.newNative ⟨"quit", .host "quit", 0⟩)).2
    ∃ c₀, Runs host (ask host (.call (.native ⟨0⟩) [.native ⟨1⟩]) natives []) c₀ ∧
      c₀.below.length = 1 ∧ ∀ r m, Runs host c₀ (.answer r m []) → ∃ s, r = .error (.exit s) := by
  intro host natives
  have hm : Reachable host (.answer (.ok {}) natives []) :=
    reachable_acted host _ [.newNative ⟨"pcall", .builtin .pcall, 1⟩, .newNative ⟨"quit", .host "quit", 0⟩]
  -- the exit is raised while the protected call waits, which hands it on
  obtain ⟨p, m, p', q, m', k, hruns, hk⟩ : ∃ p m p' q m' k, Runs host
      (ask host (.call (.native ⟨0⟩) [.native ⟨1⟩]) natives [])
      (.work (.run p false) (.raise (.exit 7) m) [⟨.run p' false, q, m', k⟩]) ∧
      ∀ m, k (.error (.exit 7)) m = .raise (.exit 7) m :=
    ⟨_, _, _, _, _, _, .of_next rfl (.of_next rfl (.single rfl)), fun _ => rfl⟩
  generalize hl : (⟨.run p' false, q, m', k⟩ : Level) = l at hruns
  have hc := hm.trans ((leadsTo_of_runs hruns).head (.ask _))
  refine ⟨_, hruns, rfl, fun r m₁ hr => ?_⟩
  have hh : host.HandsOn := fun _ _ => trivial
  refine ((exit_handed_on hh hc rfl).2 ?_ _ hr).2 r m₁ rfl
  -- no handler is ever asked for
  have hway : ∀ {h f c}, Trail host 7 (.work (.run p false) (.raise (.exit 7) m) [l]) h f c →
      f = .exit 7 ∧ ∃ b, b.length = h ∧ (b = [l] ∨ b = []) ∧
        ((∃ p m, c = .work (.run p false) (.raise (.exit 7) m) b) ∨
          ∃ m, c = .answer (.error (.exit 7)) m b) := by
    intro h f c ht
    induction ht with
    | start => exact ⟨rfl, [l], rfl, .inl rfl, .inl ⟨p, m, rfl⟩⟩
    | step _ ha hn ih =>
      obtain ⟨rfl, b, hlen, hb, ⟨p, m, rfl⟩ | ⟨m, rfl⟩⟩ := ih
      · cases hn
        cases p <;> exact ⟨rfl, b, hlen, hb, .inr ⟨_, rfl⟩⟩
      · have hlt := ha _ _ _ rfl
        omega
    | handled _ ih =>
      obtain ⟨rfl, b, hlen, hb, ⟨p, m, hc⟩ | ⟨m, hc⟩⟩ := ih <;> cases hc
      simp only [List.length_cons] at hlen
      omega
    | down _ _ ih =>
      obtain ⟨rfl, b, hlen, hb, ⟨p, m, hc⟩ | ⟨m, hc⟩⟩ := ih <;> cases hc
      obtain hb | hb := hb <;> cases hb
      subst hl
      exact ⟨rfl, [], rfl, .inr rfl, .inl ⟨p', _, congrArg (Config.work _ · []) (hk _)⟩⟩
  intro h f r m b ht _
  rw [(hway ht).1]
  rfl
/-- One function ends the program, all others raise nil. -/
def quitOrRaise : Host := fun name _ =>
  if name = "quit" then .fail (.exit 7) else .fail (.raised .nil)

/-- Marks the first argument and calls the second one. -/
def markAndCall : Prototype where
  name := "body"
  source := "body"
  params := 2
  window := 3
  code := #[.abc .tbc 0 (.register 0) (.register 0), .abc .call 1 (.register 1) (.register 1),
    .abc .ret 0 (.register 1) (.register 0)]

/-- A machine with a table whose handler raises. -/
def withHandler : Machine :=
  let acts : List Action := [.newNative ⟨"pcall", .builtin .pcall, 1⟩,
    .newNative ⟨"quit", .host "quit", 0⟩, .newNative ⟨"raise", .host "raise", 0⟩, .newTable, .newTable,
    .setField ⟨1⟩ (.ofString "__close") (.native ⟨2⟩), .setTableMetatable ⟨2⟩ (some ⟨1⟩)]
  ((acts.foldl (fun m a => (a.apply m).2) (bare ⟨4, 64, 8, 8⟩)).load markAndCall).2

/-- The handler of a marked value fails while an exit unwinds its frame: the protected call returns. -/
theorem exit_lost_in_handler : quitOrRaise "quit" [] = .fail (.exit 7) ∧
    (serve quitOrRaise 9 (.call (.native ⟨0⟩) [.closure ⟨0⟩, .table ⟨2⟩, .native ⟨1⟩])
      withHandler).bind (fun p => p.1.toOption.map Reply.values) = some [.bool false, .nil] :=
  ⟨rfl, by decide +kernel⟩

end Config
end RegisterMachine
