import Tribuchet.ChunkStore.DiskRules
import Tribuchet.ChunkStore.Store

/-! Rules for programs on a store and its directory, for any allowed outcomes of
their file operations. -/

namespace Tribuchet.ChunkStore

open ByteStrings Filesystem Hoare

variable {α β : Type} {allowed : Outcome → Prop} {s : Store} {d : Directory FileName}

/-- From the store `s` and the directory `d`, whatever allowed outcomes the file
operations of `x` meet, `x` ends as `Q` or, on an error, as `E` says. -/
def EndsFrom (allowed : Outcome → Prop) (x : StoreM α) (s : Store) (d : Directory FileName)
    (Q : α → Store → Directory FileName → Prop) (E : Error → Store → Directory FileName → Prop) : Prop :=
  ∀ outcomes, (∀ o ∈ outcomes, allowed o) → Ends x ⟨s, ⟨d, outcomes⟩⟩
    (fun a w => Q a w.store w.disk.dir ∧ ∀ o ∈ w.disk.outcomes, allowed o)
    (fun e w => E e w.store w.disk.dir ∧ ∀ o ∈ w.disk.outcomes, allowed o)

variable {Q R : α → Store → Directory FileName → Prop} {E F : Error → Store → Directory FileName → Prop}
variable {x : StoreM α}

theorem EndsFrom.mono (h : EndsFrom allowed x s d R F) (hQ : ∀ a s d, R a s d → Q a s d)
    (hE : ∀ e s d, F e s d → E e s d) : EndsFrom allowed x s d Q E := fun outcomes ho =>
  (h outcomes ho).mono (fun a _ hw => ⟨hQ a _ _ hw.1, hw.2⟩) fun e _ hw => ⟨hE e _ _ hw.1, hw.2⟩

theorem EndsFrom.and (h₁ : EndsFrom allowed x s d Q E) (h₂ : EndsFrom allowed x s d R F) :
    EndsFrom allowed x s d (fun a s d => Q a s d ∧ R a s d) (fun e s d => E e s d ∧ F e s d) :=
  fun outcomes ho => ((h₁ outcomes ho).and (h₂ outcomes ho)).mono
    (fun _ _ hw => ⟨⟨hw.1.1, hw.2.1⟩, hw.1.2⟩) fun _ _ hw => ⟨⟨hw.1.1, hw.2.1⟩, hw.1.2⟩

theorem EndsFrom.bind {f : α → StoreM β} {Q : β → Store → Directory FileName → Prop}
    (h : EndsFrom allowed x s d R E) (k : ∀ a s d, R a s d → EndsFrom allowed (f a) s d Q E) :
    EndsFrom allowed (x >>= f) s d Q E := fun outcomes ho =>
  (h outcomes ho).bind fun a t ht => k a _ _ ht.1 t.disk.outcomes ht.2

theorem EndsFrom.tryCatch {h : Error → StoreM α} (hx : EndsFrom allowed x s d Q F)
    (k : ∀ e s d, F e s d → EndsFrom allowed (h e) s d Q E) : EndsFrom allowed (tryCatch x h) s d Q E :=
  fun outcomes ho => (hx outcomes ho).tryCatch fun e t ht => k e _ _ ht.1 t.disk.outcomes ht.2

theorem EndsFrom.ignore {fatal : Error → Bool} {Q : Unit → Store → Directory FileName → Prop}
    (h : EndsFrom allowed x s d (fun _ => Q ()) fun e s d => if fatal e then E e s d else Q () s d) :
    EndsFrom allowed (ignore fatal x) s d Q E := fun outcomes ho => by
  refine ((h outcomes ho).mono (fun _ _ hw => hw) fun e w hw => ?_).ignore
  dsimp only at hw
  split_ifs with hf
  · rw [if_pos hf] at hw
    exact hw
  · rw [if_neg hf] at hw
    exact hw

theorem endsFrom_pure {a : α} (h : Q a s d) : EndsFrom allowed (pure a) s d Q E := fun _ ho =>
  ends_pure ⟨h, ho⟩

theorem endsFrom_throw {e : Error} (h : E e s d) : EndsFrom allowed (throw e : StoreM α) s d Q E :=
  fun _ ho => ends_throw ⟨h, ho⟩

theorem endsFrom_getStore {f : Store → StoreM α} (h : EndsFrom allowed (f s) s d Q E) :
    EndsFrom allowed (getStore >>= f) s d Q E :=
  EndsFrom.bind (R := fun a t k => a = s ∧ t = s ∧ k = d) (fun _ ho => ⟨⟨rfl, rfl, rfl⟩, ho⟩)
    (by rintro _ _ _ ⟨rfl, rfl, rfl⟩; exact h)

theorem endsFrom_modifyStore {g : Store → Store} {f : Unit → StoreM α}
    (h : EndsFrom allowed (f ()) (g s) d Q E) : EndsFrom allowed (modifyStore g >>= f) s d Q E :=
  EndsFrom.bind (R := fun _ t k => t = g s ∧ k = d) (fun _ ho => ⟨⟨rfl, rfl⟩, ho⟩)
    (by rintro _ _ _ ⟨rfl, rfl⟩; exact h)

theorem endsFrom_modify {g : Store → Store} {Q : Unit → Store → Directory FileName → Prop}
    (h : Q () (g s) d) : EndsFrom allowed (modifyStore g) s d Q E := fun _ ho => ⟨h, ho⟩

theorem endsFrom_onDisk {x : DiskM α} {R : α → Directory FileName → Prop}
    {F : Error → Directory FileName → Prop} (h : EndsIn allowed x d R F) (hQ : ∀ a d, R a d → Q a s d)
    (hE : ∀ e d, F e d → E e s d) : EndsFrom allowed (onDisk x) s d Q E := fun outcomes ho =>
  Ends.zoom (s := (⟨s, ⟨d, outcomes⟩⟩ : World)) (h outcomes ho)
    (fun a k hk => ⟨hQ a k.dir hk.1, hk.2⟩) fun e k hk => ⟨hE e k.dir hk.1, hk.2⟩

theorem endsFrom_foldlM {I : List α → β → Store → Directory FileName → Prop} {f : β → α → StoreM β}
    (step : ∀ x xs b s d, I (x :: xs) b s d → EndsFrom allowed (f b x) s d (I xs) E) {xs : List α} {b : β}
    (hI : I xs b s d) : EndsFrom allowed (xs.foldlM f b) s d (I []) E := fun _ ho =>
  ends_foldlM (I := fun xs b (w : World) => I xs b w.store w.disk.dir ∧ ∀ o ∈ w.disk.outcomes, allowed o)
    (fun x xs b w hw => step x xs b _ _ hw.1 w.disk.outcomes hw.2) ⟨hI, ho⟩

end Tribuchet.ChunkStore
