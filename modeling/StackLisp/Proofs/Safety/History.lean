import StackLisp.Proofs.Actions.Congruence
import StackLisp.Proofs.Safety.Growth

/-!
# What has happened before

`Layout.Code` and the like judge an image as it is. Some things can only be said about
how it came to be:

* the code of a function was compiled when the functions entered later were not there,
  so it knows only those before it (`Layout.below`);
* a frame that a call has entered was made with a slot for each argument that the
  function requires, and has stayed so.

`History L image` says so, the latter of the frames that marks in the log tell of. It
also says that no mark tells of a fault. It is kept when the heap grows
(`History.grows`).
-/

namespace StackLisp

namespace Layout

/-- What was known when a position of the table of functions was filled: the functions before
    it, and everything else. -/
def below (L : Layout) (i : Nat) : Layout :=
  { L with shape := fun f => if f.index < i then L.shape f else none }

variable {n : Nat} {L L' : Layout} {h h' : Heap}

theorem shape_below {i : Nat} {f : FunctionId} {env : List FrameShape} (hf : (L.below i).shape f = some env) :
    f.index < i ∧ L.shape f = some env := by
  simp only [below] at hf
  split at hf
  · next hlt => exact ⟨hlt, hf⟩
  · cases hf

theorem Within.below (hw : L.Within L') (i : Nat) : (L.below i).Within (L'.below i) :=
  { hw with
    shape := fun f env hf => by
      obtain ⟨hlt, hf⟩ := shape_below hf
      simp only [Layout.below, hlt, if_true]
      exact hw.shape f env hf }

/-- Nothing is lost where all functions come before. -/
theorem within_below {i : Nat} (hw : L.Within L') (hi : ∀ f env, L.shape f = some env → f.index < i) :
    L.Within (L'.below i) :=
  { hw with
    shape := fun f env hf => by
      simp only [Layout.below, hi f env hf, if_true]
      exact hw.shape f env hf }

/-- The functions that are known make no difference to calls that become tail calls. -/
theorem Patched.below {id : PairId} (hp : Patched L h h' id) (i : Nat) : Patched (L.below i) h h' id := by
  have hk : Keeps L h' (L.below i) h' := ⟨fun _ ho => ho, fun _ _ => rfl, fun _ _ _ => rfl⟩
  obtain ⟨v, k, hv, hr⟩ := hp.returns
  exact ⟨hp.before, hp.after, v, k, hv.keeps hk, hr.keeps hk⟩

theorem Grows.below (g : Grows n L h L' h') (i : Nat) : Grows n (L.below i) h (L'.below i) h' :=
  { g with
    within := g.within.below i
    car := fun id ho => (g.car id ho).imp_right fun hp => hp.below i }

end Layout

open Layout

/-- The code of every function knows only the functions before it, the frames that have been
    entered are known to have the slots they need, and no moment has been found at fault. -/
structure History (L : Layout) (image : Image) : Prop where
  bodies : ∀ f, f.index < image.functions.size → ∃ env, (L.below f.index).Code image.heap .function
    ((image.function f).arity.frame :: env) [] [] (image.function f).code
  entered : ∀ f n, Mark.entered f n ∈ image.log.marks → L.slots f = some n
  faultless : Mark.fault ∉ image.log.marks

section

variable {n : Nat} {L L' : Layout} {image image' : Image}

/-- The past stays as it is when the heap grows, and functions are added whose code is in order. -/
theorem History.extend (hi : History L image) (g : Grows n L image.heap L' image'.heap)
    (functions : ∀ f, f.index < image'.functions.size →
      f.index < image.functions.size ∧ (image'.function f).arity = (image.function f).arity ∧
          (image'.function f).code = (image.function f).code ∨
        ∃ env, (L'.below f.index).Code image'.heap .function
          ((image'.function f).arity.frame :: env) [] [] (image'.function f).code)
    (marks : image'.log.marks = image.log.marks) : History L' image' where
  bodies f hf := by
    rcases functions f hf with ⟨hlt, harity, hcode⟩ | hcode
    · rw [harity, hcode]
      exact (hi.bodies f hlt).imp fun _ hc => hc.grows (g.below f.index)
    · exact hcode
  entered f n hm := g.within.slots f n (hi.entered f n (marks ▸ hm))
  faultless := marks ▸ hi.faultless

/-- The past stays as it is when only the heap changes. -/
theorem History.grows (hi : History L image) (g : Grows n L image.heap L' image'.heap)
    (functions : image'.functions = image.functions) (marks : image'.log.marks = image.log.marks) :
    History L' image' := by
  refine hi.extend g (fun f hf => .inl ⟨functions ▸ hf, ?_⟩) marks
  have heq : image'.function f = image.function f := by simp only [Image.function, functions]
  exact ⟨congrArg _ heq, congrArg _ heq⟩

/-- The past does not depend on anything else. -/
theorem History.of_eq (hi : History L image) (heap : image'.heap = image.heap)
    (functions : image'.functions = image.functions) (marks : image'.log.marks = image.log.marks) :
    History L image' := by
  refine hi.grows (n := 0) ?_ functions marks
  rw [heap]
  exact .refl 0 L image.heap

/-- A call has entered a frame with the slots that it needs. -/
theorem History.enter (hi : History L image) {f : FrameId} {m : Nat} (hslots : L.slots f = some m)
    (heap : image'.heap = image.heap) (functions : image'.functions = image.functions)
    (marks : image'.log.marks = image.log.marks ++ [.entered f m]) : History L image' where
  bodies g hg := by
    simp only [Image.function, functions, heap] at hg ⊢
    exact hi.bodies g hg
  entered g k hm := by
    rw [marks, List.mem_append, List.mem_singleton] at hm
    rcases hm with hm | hm
    · exact hi.entered g k hm
    · cases hm
      exact hslots
  faultless hm := by
    rw [marks, List.mem_append, List.mem_singleton] at hm
    rcases hm with hm | hm
    · exact hi.faultless hm
    · cases hm

end

end StackLisp
