import Dynarec.Proofs.Lower.Placement

/-!
# Where the code of a block leads

`Lowering.leads` speaks about a step of a lowering whose code may hold forward jumps and exits,
which `Lowering.wp` cannot.  The code of the step lies in host code that carries the finished
lowering `last`.  A run from the first word of the step either comes to the word behind it, with
`Q`, or to a cursor that satisfies `E`.  There is one rule for each way in which the lowering of a
block is composed.
-/

namespace Dynarec

namespace Lowering

variable {α β : Type} {code : Array HostWord} {base : Nat} {last : Builder} {s : Setting}
  {E : Host.Cursor → Prop} {b : Builder} {h : HostState} {m : Machine}

/-- The operation at the cursor stops the run with an outcome that satisfies `F`. -/
def StopsWith (code : Array HostWord) (F : Outcome → Prop) (c : Host.Cursor) : Prop :=
  ∃ op, Host.operationAt? code c.offset = some op ∧ F (op.perform c.host c.machine)

/-- **What a step does and where the code that it emits leads.** -/
def leads (code : Array HostWord) (base : Nat) (last : Builder) (s : Setting) (act : Lowering α)
    (E : Host.Cursor → Prop) (Q : α → Builder → HostState → Machine → Prop) (b : Builder)
    (h : HostState) (m : Machine) : Prop :=
  Way code base last b → ∀ x b', act s b = .ok (x, b') → b'.Extends last →
    (∃ h' m', Host.Reaches code ⟨b.code.offset, h, m⟩ ⟨b'.code.offset, h', m'⟩ ∧ Q x b' h' m') ∨
    ∃ c, Host.Reaches code ⟨b.code.offset, h, m⟩ c ∧ E c

/-- The code does not run through to the word behind it. -/
def Nowhere (α : Type) : α → Builder → HostState → Machine → Prop := fun _ _ _ _ => False

/-- **A step that emits straight code.** -/
theorem leads_of_wp {act : Lowering α} {F : Outcome → Prop}
    {Q : α → Builder → HostState → Machine → Prop} (hact : wp s act F Q b h m)
    (hF : ∀ c, Host.Reaches code ⟨b.code.offset, h, m⟩ c → StopsWith code F c → E c) :
    leads code base last s act E Q b h m := by
  intro y x b' hok hlast
  obtain ⟨ops, hemits, hyields⟩ := hact x b' hok
  obtain ⟨hlaid, hoffset⟩ := y.laid hemits hlast
  rcases (Host.runOps ops h m).next_or_stops with ⟨h', m', hrun⟩ | hstop
  · rw [hrun] at hyields
    have hreach := hlaid.runOps_next hrun
    rw [← hoffset] at hreach
    exact .inl ⟨h', m', hreach, hyields⟩
  · obtain ⟨k, h', m', op, -, hreach, hop, hperform⟩ := hlaid.runOps_stop rfl hstop
    rw [Outcome.yields_of_stops hstop] at hyields
    refine .inr ⟨_, hreach, hF _ hreach ⟨op, hop, ?_⟩⟩
    show F (op.perform h' m')
    rw [hperform]
    exact hyields

/-- A step whose straight code does not stop. -/
theorem leads_of_never {act : Lowering α} {Q : α → Builder → HostState → Machine → Prop}
    (hact : wp s act Never Q b h m) : leads code base last s act E Q b h m :=
  leads_of_wp hact fun _ _ ⟨_, _, hno⟩ => hno.elim

/-- **One step after another.** -/
theorem leads_bind {act : Lowering α} {f : α → Lowering β} {n k : Nat}
    {Q : β → Builder → HostState → Machine → Prop} (hgrow : Growing s act n b)
    (hrest : ∀ x b', Growing s (f x) k b')
    (hact : leads code base last s act E
      (fun x b' h' m' => Host.Reaches code ⟨b.code.offset, h, m⟩ ⟨b'.code.offset, h', m'⟩ →
        leads code base last s (f x) E Q b' h' m') b h m) :
    leads code base last s (act >>= f) E Q b h m := by
  intro y x b'' hok hlast
  obtain ⟨x', b', hx, hy⟩ := bind_eq_ok hok
  have hext := (hrest x' b' x b'' hy).1.trans hlast
  have y' := y.step (hgrow x' b' hx).1 hext
  rcases hact y x' b' hx hext with ⟨h', m', hreach, hQ⟩ | hstop
  · rcases hQ hreach y' x b'' hy hlast with ⟨h'', m'', hreach', hQ'⟩ | ⟨c, hreach', hE⟩
    · exact .inl ⟨h'', m'', hreach.trans hreach', hQ'⟩
    · exact .inr ⟨c, hreach.trans hreach', hE⟩
  · exact .inr hstop

/-- A step whose straight code does not stop, and another. -/
theorem leads_bind_never {act : Lowering α} {f : α → Lowering β} {k : Nat}
    {Q : β → Builder → HostState → Machine → Prop} (hact : Straight s act)
    (hrest : ∀ x b', Growing s (f x) k b')
    (hwp : wp s act Never (fun x b' h' m' => leads code base last s (f x) E Q b' h' m') b h m) :
    leads code base last s (act >>= f) E Q b h m :=
  leads_bind (growing_of_straight hact) hrest
    (leads_of_never (wp_imp hwp fun _ _ _ _ hleads _ => hleads))

/-- A first step that emits nothing. -/
theorem leads_silent {act : Lowering α} {f : α → Lowering β} {b₁ : Builder} {x : α}
    {Q : β → Builder → HostState → Machine → Prop} (hok : act s b = .ok (x, b₁))
    (hcode : b₁.code = b.code) (hexits : b₁.exits = b.exits)
    (hrest : leads code base last s (f x) E Q b₁ h m)
    (hgrow : ∃ n, Growing s (f x) n b₁) :
    leads code base last s (act >>= f) E Q b h m := by
  intro y x' b'' hbind hlast
  obtain ⟨x₁, b', hx, hy⟩ := bind_eq_ok hbind
  rw [hok] at hx
  cases hx
  obtain ⟨n, hgrow⟩ := hgrow
  have y' := y.step (.of_emits (.nothing hcode hexits)) ((hgrow x' b'' hy).1.trans hlast)
  have hresult := hrest y' x' b'' hy hlast
  rwa [hcode] at hresult

theorem leads_imp {act : Lowering α} {Q Q' : α → Builder → HostState → Machine → Prop}
    {E' : Host.Cursor → Prop} (hact : leads code base last s act E Q b h m)
    (hE : ∀ c, Host.Reaches code ⟨b.code.offset, h, m⟩ c → E c → E' c)
    (hQ : ∀ x b' h' m', Q x b' h' m' → Q' x b' h' m') : leads code base last s act E' Q' b h m := by
  intro y x b' hok hlast
  rcases hact y x b' hok hlast with ⟨h', m', hreach, hq⟩ | ⟨c, hreach, he⟩
  · exact .inl ⟨h', m', hreach, hQ _ _ _ _ hq⟩
  · exact .inr ⟨c, hreach, hE c hreach he⟩

/-- Steps that do the same lead to the same places. -/
theorem leads_congr {act act' : Lowering α} {Q : α → Builder → HostState → Machine → Prop}
    (heq : act s b = act' s b) (hact : leads code base last s act' E Q b h m) :
    leads code base last s act E Q b h m := by
  intro y x b' hok
  rw [heq] at hok
  exact hact y x b' hok

/-- Code that does not run through may be followed by anything. -/
theorem leads_bind_nowhere {act : Lowering α} {f : α → Lowering β} {n k : Nat}
    {Q : β → Builder → HostState → Machine → Prop} (hgrow : Growing s act n b)
    (hrest : ∀ x b', Growing s (f x) k b')
    (hact : leads code base last s act E (Nowhere α) b h m) :
    leads code base last s (act >>= f) E Q b h m :=
  leads_bind hgrow hrest (leads_imp hact (fun _ _ he => he) fun _ _ _ _ hno => hno.elim)

end Lowering

end Dynarec
