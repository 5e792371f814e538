import ChipPascal.Check.Usage

/-!
# The walk over a program

Rules to follow the walk for unset and unused names step by step, from what holds of its state
before to what holds of it after.
-/

namespace ChipPascal.Usage

variable {α β : Type} {I J : State → Prop}

def Passes (I J : State → Prop) (x : Walk α) : Prop :=
  ∀ s, I s → ∃ a s', x s = .ok a s' ∧ J s'

theorem passes_pure (a : α) : Passes I I (pure a) := fun s hs => ⟨a, s, rfl, hs⟩

theorem Passes.bind {K : State → Prop} {x : Walk α} {f : α → Walk β} (hx : Passes I J x)
    (hf : ∀ a, Passes J K (f a)) : Passes I K (x >>= f) := by
  intro s hs
  obtain ⟨a, s₁, hRun, hs₁⟩ := hx s hs
  obtain ⟨b, s₂, hRun₂, hs₂⟩ := hf a s₁ hs₁
  refine ⟨b, s₂, ?_, hs₂⟩
  show EStateM.bind x f s = _
  simp only [EStateM.bind, hRun, hRun₂]

theorem passes_get {f : State → Walk α} (hf : ∀ s, I s → Passes I J (f s)) :
    Passes I J (get >>= f) :=
  fun s hs => hf s hs s hs

theorem passes_modify {f : State → State} (h : ∀ s, I s → J (f s)) :
    Passes I J (modify f : Walk Unit) :=
  fun s hs => ⟨(), f s, rfl, h s hs⟩

theorem update_eq {s : State} {name : Ident} {entry : Entry}
    (h : s.scopes.get? name.name = some entry) (f : Entry → Entry) :
    update name f s = .ok (f entry) { s with scopes := s.scopes.set name.name (f entry) } := by
  have hGot : (EStateM.get : Walk State) s = .ok s s := rfl
  have hPut : ∀ t, (EStateM.set t : Walk PUnit) s = .ok () t := fun _ => rfl
  simp only [update, bind, get, getThe, MonadStateOf.get, EStateM.bind, hGot, h, set,
    MonadStateOf.set, hPut, pure, EStateM.pure]

end ChipPascal.Usage
