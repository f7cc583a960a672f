import RegisterMachine.Proofs.Askers
import RegisterMachine.Proofs.Exits
import RegisterMachine.Proofs.Locations

/-! What a protected call gives for a fault. On its way there a fault goes through questions that hand it
on; it gets its location once, and keeps what is under it. -/
namespace RegisterMachine

open Machine

namespace Fault

def Pays : Fault → Value → Prop
  | .raised v, w => w = v
  | f, w => w = .str f.message ∨ ∃ l : Location, w = .str (l.text ++ ": " ++ f.message)

theorem pays_payload {f : Fault} (h : f.isBare = true) : f.Pays f.payload := by
  cases f with
  | located f l t => cases h
  | interrupt i => cases h
  | raised v => rfl
  | _ => exact .inl rfl

theorem pays_payload_located {f : Fault} (h : f.isBare = true) (l : Option Location)
    (t : List TraceEntry) : f.Pays (located f l t).payload := by
  cases f with
  | located f l t => cases h
  | interrupt i => cases h
  | raised v => rfl
  | _ =>
    cases l with
    | none => exact .inl rfl
    | some l => exact .inr ⟨l, rfl⟩

theorem root_of_isBare {f : Fault} (h : f.isBare = true) : f.root = f := by
  cases f with
  | located f l t => cases h
  | _ => rfl

theorem root_pays_payload {f : Fault} (h : f.isProper = true) (hi : f.isInterrupt = false) :
    f.root.Pays f.payload := by
  cases f with
  | located g l t =>
    have hg : g.isBare = true := h
    show g.root.Pays _
    rw [root_of_isBare hg]
    exact pays_payload_located hg l t
  | interrupt i => cases hi
  | _ => exact pays_payload rfl

theorem root_locate (m : Machine) (f : Fault) : (m.locate f).root = f.root := by
  cases f <;> rfl

theorem Located.root_eq {f e : Fault} (h : Located f e) : e.root = f.root := by
  obtain rfl | ⟨m, rfl⟩ := h
  · rfl
  · exact root_locate m f

theorem Located.isInterrupt_eq {f e : Fault} (h : Located f e) : e.isInterrupt = f.isInterrupt := by
  obtain rfl | ⟨m, rfl⟩ := h
  · rfl
  · cases f <;> rfl

theorem Located.isProper {f e : Fault} (h : Located f e) (hf : f.isProper = true) : e.isProper = true := by
  obtain rfl | ⟨m, rfl⟩ := h
  · exact hf
  · exact isProper_locate m hf

theorem Located.isCancelled_eq {f e : Fault} (h : Located f e) : e.isCancelled = f.isCancelled := by
  unfold isCancelled
  rw [h.root_eq]

theorem isYield_of_isInterrupt {f : Fault} (h : f.isInterrupt = false) : f.isYield = false := by
  cases f with
  | interrupt i => cases h
  | _ => rfl

end Fault

theorem Library.pcall_eq (args : List Value) : pcall args =
    .ask (.call (Arguments.get args 1) (args.drop 1)) fun
      | .ok reply => .done (.bool true :: reply.values)
      | .error e =>
        if e.isInterrupt || e.isCancelled then .fail e else .done [.bool false, e.payload] := by
  refine congrArg (Script.ask _) (funext fun r => ?_)
  cases r with
  | ok reply => rfl
  | error e =>
    show Script.bind (if _ then _ else _) _ = if _ then _ else _
    split <;> rfl

/-- What a protected call makes of a fault is a result, unless the fault is to end it as well. -/
theorem AskedBy.next_pcall {α : Type} {args : List Value} {q : Query}
    {next : Except Fault Reply → Machine → Step α} {outcome : Except Fault (List Value) → Machine → Step α}
    (h : AskedBy (Library.pcall args) q next outcome) {e : Fault} (he : e.isInterrupt = false)
    (m : Machine) : next (.error e) m =
      outcome (if e.isCancelled then .error e else .ok [.bool false, e.payload]) m := by
  obtain ⟨-, rest, ha, hnext⟩ := h
  rw [Library.pcall_eq] at ha
  rw [hnext]
  cases ha with
  | here =>
    dsimp only
    rw [he, Bool.false_or]
    split <;> rfl
  | @ask _ _ r _ _ ha =>
    cases r with
    | ok reply => cases ha
    | error e =>
      dsimp only at ha
      split at ha <;> cases ha

namespace Config

/-- The way of a fault from where it is raised, by the number of questions below the one that it has got to, as long as
questions hand it on and the handlers give no fault. -/
inductive Way (host : Host) (c₀ : Config) : Nat → Config → Prop
  | start : Way host c₀ c₀.below.length c₀
  | step {h : Nat} {c c' : Config} : Way host c₀ h c →
      (∀ r m below, c = .answer r m below → h + 1 < below.length) → Next host c c' → Way host c₀ h c'
  | handled {reply : Reply} {m : Machine} {l : Level} {low : List Level} :
      Way host c₀ low.length (.answer (.ok reply) m (l :: low)) →
      Way host c₀ low.length (.work l.stage (l.next (.ok reply) m) low)
  | down {r : Except Fault Reply} {m : Machine} {l : Level} {low : List Level} :
      Way host c₀ (low.length + 1) (.answer r m (l :: low)) → Propagates l.next →
      Way host c₀ low.length (.work l.stage (l.next r m) low)

variable {host : Host} {below upper low : List Level} {l : Level} {m : Machine}
  {c c' c₀ : Config} {h : Nat} {f : Fault}

theorem Way.runs (h' : Way host c₀ h c) : Runs host c₀ c := by
  induction h' with
  | start => exact .refl
  | step _ _ hn ih => exact ih.tail hn
  | handled _ ih => exact ih.tail rfl
  | down _ _ ih => exact ih.tail rfl

def Raises (f : Fault) : Config → Prop
  | .work _ (.raise e _) _ => e = f
  | .answer r _ _ => r = .error f
  | _ => False

theorem Raises.carries (h' : Raises f c) : Carries f c := by
  cases c with
  | work g s below =>
    cases s with
    | ret a m => cases h'
    | raise e m =>
      obtain rfl : e = f := h'
      exact carries_raise g (.refl e) m
    | ask q m k => cases h'
  | loop p m below => cases h'
  | answer r m below => exact ⟨f, h', .refl f⟩

theorem Raises.isProper (h' : Raises f c) (hp : c.Proper) : f.isProper = true := by
  cases c with
  | work g s below =>
    cases s with
    | ret a m => cases h'
    | raise e m =>
      obtain rfl : e = f := h'
      exact hp.1.2.fails.of_error
    | ask q m k => cases h'
  | loop p m below => cases h'
  | answer r m below => exact hp.1.1 f h'

/-- A handler is asked for on the way, and answers with a fault. -/
def FailsOnWay (host : Host) (c₀ : Config) : Prop :=
  ∃ h f m below, Way host c₀ h (.answer (.error f) m below) ∧ below.length = h + 1

theorem leave_error (hf : f.isInterrupt = false) (p : Purpose) (m : Machine) (below : List Level) :
    ∃ m', leave p (.error f) m below = .answer (.error f) m' below := by
  have hy := Fault.isYield_of_isInterrupt hf
  cases p with
  | call stop top =>
    refine ⟨m.leaveCall top, ?_⟩
    rw [leave, withoutYield_error hy]
    rfl
  | resume co =>
    refine ⟨(leaveCoroutine co (.error f) m).2, ?_⟩
    rw [leave, leaveCoroutine_error co m hy]

theorem suffix_append_cons {l' : Level} {low' : List Level} (hs : (l' :: low') <:+ upper ++ l :: low)
    (hlen : low.length ≤ low'.length) : (l' = l ∧ low' = low) ∨ l' ∈ upper ∧ low.length < low'.length := by
  induction upper with
  | nil =>
    obtain heq | hs := List.suffix_cons_iff.1 hs
    · cases heq
      exact .inl ⟨rfl, rfl⟩
    · have hle := hs.length_le
      rw [List.length_cons] at hle
      omega
  | cons u upper ih =>
    obtain heq | hs := List.suffix_cons_iff.1 hs
    · obtain ⟨rfl, rfl⟩ := List.cons.inj heq
      have hlt : low.length < (upper ++ l :: low).length := by
        rw [List.length_append, List.length_cons]
        omega
      exact .inr ⟨List.mem_cons_self, hlt⟩
    · obtain h | ⟨hmem, hlt⟩ := ih hs
      · exact .inl h
      · exact .inr ⟨List.mem_cons_of_mem u hmem, hlt⟩

section

variable (hc : Reachable host c₀) (h₀ : Raises f c₀) (hf : f.isInterrupt = false)

include hc h₀ hf

theorem Way.onWay (h' : Way host c₀ h c) : OnWay h f c₀ c := by
  have hanswered : ∀ {h r m l low}, Way host c₀ h (.answer r m (l :: low)) →
      Balanced l.machine m ∧ NoYield r :=
    fun hw => (hc.trans (leadsTo_of_runs hw.runs)).answered
  induction h' with
  | start =>
    exact ⟨Fault.isYield_of_isInterrupt hf, .inl ⟨rfl, List.suffix_refl _, h₀.carries⟩⟩
  | step _ ha hn ih => exact ih.next hn ha
  | handled hw ih =>
    obtain ⟨hb, hr⟩ := hanswered hw
    exact ih.handled hb hr
  | @down r m l low hw hp ih =>
    obtain ⟨hs, e, rfl, hl⟩ := ih.arrived rfl
    refine ⟨ih.noYield, .inl ⟨rfl, (List.suffix_cons l low).trans hs, ?_⟩⟩
    rw [hp e m (hl.isInterrupt_eq.trans hf)]
    exact carries_raise l.stage hl m

/-- Above a question that waits from the beginning, the way goes on within others or gets there. -/
theorem Way.extend (hkept : ¬FailsOnWay host c₀) (hb : c₀.below = upper ++ l :: low)
    (hup : ∀ l ∈ upper, Propagates l.next) (h' : Way host c₀ h c) (hlow : low.length < h)
    (hn : Next host c c') :
    (∃ h, low.length < h ∧ Way host c₀ h c') ∨
      ∃ e m, f.Located e ∧ c = .answer (.error e) m (l :: low) ∧
        c' = .work l.stage (l.next (.error e) m) low := by
  have hw := h'.onWay hc h₀ hf
  by_cases hans : ∃ r m b, c = .answer r m b
  · obtain ⟨r, m, b, rfl⟩ := hans
    have hle : h ≤ b.length := hw.le
    cases b with
    | nil => cases hn
    | cons l' low' =>
      rw [List.length_cons] at hle
      -- the question itself, a handler's, or one of those asked for the handler is answered
      obtain rfl | rfl | hlt : h = low'.length + 1 ∨ h = low'.length ∨ h < low'.length := by omega
      · obtain ⟨hs, e, rfl, hl⟩ := hw.arrived rfl
        cases hn
        obtain ⟨rfl, rfl⟩ | ⟨hmem, hlen⟩ := suffix_append_cons (hb ▸ hs) (Nat.lt_succ_iff.1 hlow)
        · exact .inr ⟨e, m, hl, rfl, rfl⟩
        · exact .inl ⟨_, hlen, h'.down (hup l' hmem)⟩
      · cases hn
        cases r with
        | ok reply => exact .inl ⟨_, hlow, h'.handled⟩
        | error e => exact absurd ⟨_, e, m, _, h', rfl⟩ hkept
      · refine .inl ⟨h, hlow, h'.step (fun r' m' b hcb => ?_) hn⟩
        cases hcb
        rw [List.length_cons]
        omega
  · exact .inl ⟨h, hlow, h'.step (fun r m b hcb => absurd ⟨r, m, b, hcb⟩ hans) hn⟩

theorem Way.suffix (hb : c₀.below = upper ++ l :: low) (h' : Way host c₀ h c) (hlow : low.length < h) :
    (l :: low) <:+ c.below := by
  have hl : (l :: low) <:+ c₀.below := hb ▸ List.suffix_append upper _
  obtain ⟨-, ⟨hlen, hs, -⟩ | ⟨new, l', low', hbelow, hlen, hs, -⟩⟩ := h'.onWay hc h₀ hf
  · exact List.suffix_of_suffix_length_le hl hs (hlen ▸ hlow)
  · have hlow' := List.suffix_of_suffix_length_le hl hs (hlen ▸ hlow)
    rw [hbelow]
    exact hlow'.trans ((List.suffix_cons l' low').trans (List.suffix_append new _))

/-- A fault that is handed on comes to the question where it is not, with what it got on its way. -/
theorem arrives_of_runs (hkept : ¬FailsOnWay host c₀) (hb : c₀.below = upper ++ l :: low)
    (hup : ∀ l ∈ upper, Propagates l.next) (hr : Runs host c₀ c) :
    (l :: low) <:+ c.below ∨ ∃ e m, f.Located e ∧ Runs host c₀ (.answer (.error e) m (l :: low)) ∧
      Runs host (.work l.stage (l.next (.error e) m) low) c := by
  suffices h : (∃ h, low.length < h ∧ Way host c₀ h c) ∨ ∃ e m, f.Located e ∧
      Runs host c₀ (.answer (.error e) m (l :: low)) ∧
      Runs host (.work l.stage (l.next (.error e) m) low) c by
    obtain ⟨h, hlow, hw⟩ | h := h
    · exact .inl (hw.suffix hc h₀ hf hb hlow)
    · exact .inr h
  induction hr with
  | refl =>
    refine .inl ⟨_, ?_, .start⟩
    rw [hb, List.length_append, List.length_cons]
    omega
  | tail hr hn ih =>
    obtain ⟨h, hlow, hw⟩ | ⟨e, m, hl, hto, hfrom⟩ := ih
    · obtain h | ⟨e, m, hl, rfl, rfl⟩ := hw.extend hc h₀ hf hkept hb hup hlow hn
      · exact .inl h
      · exact .inr ⟨e, m, hl, hr, .refl⟩
    · exact .inr ⟨e, m, hl, hto, hfrom.tail hn⟩

end

/-- Where runs go on with nothing but the fault, no handler is asked for on the way. -/
theorem Way.raises {p : Purpose} (h' : Way host (.work (.run p false) (.raise f m) below) h c)
    (hb : ∀ l ∈ below, ∃ p q m k, l = ⟨.run p false, q, m, k⟩) (hf : f.isInterrupt = false) :
    ∃ b, b.length = h ∧ b <:+ below ∧
      ((∃ p m, c = .work (.run p false) (.raise f m) b) ∨ ∃ m, c = .answer (.error f) m b) := by
  induction h' with
  | start => exact ⟨below, rfl, List.suffix_refl _, .inl ⟨p, m, rfl⟩⟩
  | step _ ha hn ih =>
    obtain ⟨b, hlen, hs, ⟨p, m, rfl⟩ | ⟨m, rfl⟩⟩ := ih
    · cases hn
      obtain ⟨m', hc⟩ := leave_error hf p m b
      exact ⟨b, hlen, hs, .inr ⟨m', hc⟩⟩
    · have hlt := ha _ _ _ rfl
      omega
  | handled _ ih =>
    obtain ⟨b, -, -, ⟨p, m, hc⟩ | ⟨m, hc⟩⟩ := ih <;> cases hc
  | @down r m l low _ hp ih =>
    obtain ⟨b, hlen, hs, ⟨p, m, hc⟩ | ⟨m, hc⟩⟩ := ih <;> cases hc
    obtain ⟨p, q, m₁, k, rfl⟩ := hb l (hs.subset List.mem_cons_self)
    refine ⟨low, rfl, (List.suffix_cons _ low).trans hs, .inl ⟨p, m, ?_⟩⟩
    rw [hp f m hf]

/-- What the loop carries out of frames is a transfer of control or a bare fault with one location. A fault that is
handed on keeps its payload, which a protected call gives. -/
theorem faults_located_once (hh : host.Proper) {r₀ : Except Fault Reply} {m₀ : Machine} {q : Query}
    (h₀ : Reachable host (.answer r₀ m₀ [])) (hm : m₀.BreaksProperly)
    (hc : Runs host (ask host q m₀ []) c) :
    (∀ serving stop time e m, dispatch host (serve host serving) stop time c.machine = some (.error e, m) →
      e.isInterrupt = true ∨ ∃ g location trace, e = .located g location trace ∧ g.isBare = true) ∧
    (∀ l ∈ c.below, Asked host l.query l.next) ∧
    ∀ f upper l low args outcome, c.Raises f → f.isInterrupt = false → c.below = upper ++ l :: low →
      (∀ l ∈ upper, Propagates l.next) → AskedBy (Library.pcall args) l.query l.next outcome →
      ¬FailsOnWay host c → ∀ c', Runs host c c' → (l :: low) <:+ c'.below ∨
        ∃ e m, Runs host c (.answer (.error e) m (l :: low)) ∧ e.root = f.root ∧ f.root.Pays e.payload ∧
          Runs host (.work l.stage
            (outcome (if f.isCancelled then .error e else .ok [.bool false, e.payload]) m) low) c' := by
  have hreach : Reachable host c :=
    h₀.trans ((leadsTo_of_runs hc).head (.ask q))
  have hasked : (ask host q m₀ []).Proper := proper_ask hh q hm fun _ hl => nomatch hl
  have hproper : c.Proper := hasked.runs hh hc
  refine ⟨fun serving stop time e m hd => ?_, fun l hl => (hreach.asked l hl).1, ?_⟩
  · exact interrupt_or_located_of_dispatch hh hreach.scheduled hproper.breaks hd
  · intro f upper l low args outcome hraises hf hbelow hup hask hkept c' hr
    obtain hw | ⟨e, m', hl, hto, hfrom⟩ := arrives_of_runs hreach hraises hf hkept hbelow hup hr
    · exact .inl hw
    · have he : e.isInterrupt = false := hl.isInterrupt_eq.trans hf
      refine .inr ⟨e, m', hto, hl.root_eq, ?_, ?_⟩
      · rw [← hl.root_eq]
        exact Fault.root_pays_payload (hl.isProper (hraises.isProper hproper)) he
      · rw [hask.next_pcall he, hl.isCancelled_eq] at hfrom
        exact hfrom

/-- A function calls its argument, and raises a number when there is none. -/
def callOrRaise : Host
  | _, [] => .fail (.raised (.int 7))
  | _, f :: _ => .call f []

theorem proper_callOrRaise : callOrRaise.Proper
  | _, [] => rfl
  | _, f :: _ => (Script.plain_call f []).proper

/-- A machine with that function and the protected call. -/
def callers : Machine := (Action.apply (Action.apply (bare ⟨4, 64, 8, 8⟩)
  (.newNative ⟨"pcall", .builtin .pcall, 1⟩)).2 (.newNative ⟨"f", .host "f", 0⟩)).2

/-- A protected call of that function with itself. -/
theorem faults_located_once_nested : ∃ c₀,
    Runs callOrRaise (ask callOrRaise (.call (.native ⟨0⟩) [.native ⟨1⟩, .native ⟨1⟩]) callers []) c₀ ∧
    c₀.below.length = 2 ∧ ∀ r m, Runs callOrRaise c₀ (.answer r m []) →
      ∃ reply, r = .ok reply ∧ reply.values = [.bool false, .int 7] := by
  have h₀ : Reachable callOrRaise (.answer (.ok {}) callers []) :=
    reachable_acted callOrRaise _ [.newNative ⟨"pcall", .builtin .pcall, 1⟩, .newNative ⟨"f", .host "f", 0⟩]
  have hm : callers.BreaksProperly := fun _ h => nomatch h
  -- the function raises while it waits for itself, and the protected call for it
  obtain ⟨p, m, p₁, q₁, m₁, k₁, p₂, q₂, m₂, k₂, hruns, hk₁, args, outcome, hk₂, hout⟩ :
      ∃ p m p₁ q₁ m₁ k₁ p₂ q₂ m₂ k₂, Runs callOrRaise
        (ask callOrRaise (.call (.native ⟨0⟩) [.native ⟨1⟩, .native ⟨1⟩]) callers [])
        (.work (.run p false) (.raise (.raised (.int 7)) m)
          [⟨.run p₁ false, q₁, m₁, k₁⟩, ⟨.run p₂ false, q₂, m₂, k₂⟩]) ∧
      Propagates k₁ ∧ ∃ args outcome, AskedBy (Library.pcall args) q₂ k₂ outcome ∧
        ∀ vs m, outcome (.ok vs) m = .ret (some vs) m := by
    refine ⟨_, _, _, _, _, _, _, _, _, _,
      .of_next rfl (.of_next rfl (.of_next rfl (.of_next rfl (.single rfl)))), fun f m hf => ?_,
      [.native ⟨1⟩, .native ⟨1⟩], _, ⟨?_, _, .here, fun r m =>
        (Step.bind_eq_handle _ _).trans (Step.handle_handle _ _ _)⟩, fun vs m => rfl⟩
    · cases f with
      | interrupt i => cases hf
      | _ => rfl
    · intro f m hf
      cases f with
      | interrupt i => cases hf
      | _ => rfl
  refine ⟨_, hruns, rfl, fun r m₄ hr => ?_⟩
  have hkept : ¬FailsOnWay callOrRaise (.work (.run p false) (.raise (.raised (.int 7)) m)
      [⟨.run p₁ false, q₁, m₁, k₁⟩, ⟨.run p₂ false, q₂, m₂, k₂⟩]) := by
    -- no handler is ever asked for
    rintro ⟨h, f, m', b', hw, hlen⟩
    obtain ⟨b, hb, -, ⟨p', m'', hc⟩ | ⟨m'', hc⟩⟩ := hw.raises (by simp) rfl
    · cases hc
    · cases hc
      omega
  obtain hwaits | ⟨e, m', -, -, hpays, hfrom⟩ :=
    (faults_located_once proper_callOrRaise h₀ hm hruns).2.2 (.raised (.int 7))
      [⟨.run p₁ false, q₁, m₁, k₁⟩] ⟨.run p₂ false, q₂, m₂, k₂⟩ [] args outcome rfl rfl rfl
      (by simpa using hk₁) hk₂ hkept _ hr
  · exact absurd hwaits.length_le (Nat.not_succ_le_zero 0)
  · have hpays : e.payload = .int 7 := hpays
    have hcancelled : (Fault.raised (.int 7)).isCancelled = false := by decide
    rw [hcancelled, if_neg Bool.false_ne_true, hpays, hout] at hfrom
    obtain ⟨reply, m₃, hleave, hvalues⟩ : ∃ reply m₃,
        leave p₂ (.ok [.bool false, .int 7]) m' [] = .answer (.ok reply) m₃ [] ∧
          reply.values = [.bool false, .int 7] := by
      cases p₂ <;> exact ⟨_, _, rfl, rfl⟩
    -- two more steps at most
    obtain hc | ⟨c₁, hn, hfrom⟩ := hfrom.cases_head
    · cases hc
    · cases hn
      have hfrom : Runs callOrRaise (leave p₂ (.ok [.bool false, .int 7]) m' []) (.answer r m₄ []) := hfrom
      rw [hleave] at hfrom
      obtain hc | ⟨c₂, hn, -⟩ := hfrom.cases_head
      · cases hc
        exact ⟨reply, rfl, hvalues⟩
      · cases hn

def locatedTwice : Fault := .located (.located .stackOverflow (some ⟨"in", 1, 1⟩) []) (some ⟨"out", 2, 2⟩) []

def failsTwice : Host := fun _ _ => .fail locatedTwice

/-- A function that calls one of the host, and the protected call. -/
def failing : List Action :=
  [.newNative ⟨"f", .host "f", 0⟩, .setField ⟨0⟩ (.ofString "f") (.native ⟨0⟩), .load (.calling "f"),
    .newNative ⟨"pcall", .builtin .pcall, 1⟩]

/-- What a function of the host has located goes through the run of frames as it is: under two locations, both of which
the protected call gives. -/
theorem located_again :
    let m : Machine := (bare ⟨4, 64, 8, 8⟩).acted failing
    let q : Query := .call (.native ⟨1⟩) [.closure ⟨0⟩]
    let c := steps failsTwice 6 (ask failsTwice q m [])
    ¬failsTwice.Proper ∧ m.BreaksProperly ∧ Reachable failsTwice (.answer (.ok {}) m []) ∧
      Runs failsTwice (ask failsTwice q m []) c ∧
      (∃ e m', dispatch failsTwice (serve failsTwice 1) 0 2 c.machine = some (.error e, m') ∧
        ¬(e.isInterrupt = true ∨ ∃ g location trace, e = .located g location trace ∧ g.isBare = true)) ∧
      (serve failsTwice 4 q m).map (fun p => p.1.toOption.map Reply.values) =
        some (some [.bool false, .str "out:2: in:1: stack overflow"]) := by
  intro m q c
  obtain ⟨m', h⟩ : ∃ m', dispatch failsTwice (serve failsTwice 1) 0 2 c.machine =
      some (.error locatedTwice, m') := Outcome.eq_error_of_failure? (by decide +kernel)
  have hproper : ¬failsTwice.Proper := fun hh => Bool.false_ne_true (hh "f" [])
  have hbreaks : m.BreaksProperly := fun _ h => nomatch h
  refine ⟨hproper, hbreaks, reachable_acted _ _ _, runs_steps 6 _, ⟨_, m', h, ?_⟩, by decide +kernel⟩
  rintro (hi | ⟨g, location, trace, hg, hbare⟩)
  · cases hi
  · cases hg
    cases hbare

end Config
end RegisterMachine
