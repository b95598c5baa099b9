import Munch.Proofs.FileReplacement
import Munch.Proofs.FrontEnds

/-!
# What a run changes

A run in a lexing mode prints one text, and where an output path is given it writes the same text to
that file. Its status is zero if the source is lexed and the file is written, and one otherwise. So
the status, what is printed and the files follow from a draft, which says all about the source, and
from what became of replacing the file.

## Main definitions

* `Invocation.Source`: what a name stands for as an input.
* `RunEffect`: the outcome of a run and the files after it.
-/
namespace Munch.Command

/-! ## Sources -/

namespace FileTree

variable {tree : FileTree} {path content : Bytes} {place : Place}

end FileTree

variable {call : Invocation} {tree : FileTree} {name : Bytes} {source : Option Bytes}

/-- The source is read and lexed without a diagnostic. -/
def Lexed (source : Option Bytes) : Prop := ∃ s ts, source = some s ∧ tokenize s = .ok ts

namespace Options

/-- The answer to a source has a text, and the status says whether it is lexed. -/
theorem answer_spec (o : Options) (s : Bytes) : (∃ text, (o.answer s).text = some text) ∧
    ((o.answer s).status = 0 ∧ Lexed (some s) ∨ (o.answer s).status = 1 ∧ ¬ Lexed (some s)) := by
  rcases Reading.ofSource_cases s with
    ⟨ts, c, report, hreading, -, hreport⟩ | ⟨ts, d, c, hreading, -⟩
  · have hok : tokenize s = .ok ts := by rw [tokenize, hreading]; rfl
    have hlexed : Lexed (some s) := ⟨s, ts, rfl, hok⟩
    rw [answer]
    cases o.mode <;> simp [listing, dump, verdict, hreading, hok, hreport, hlexed]
  · have herror : tokenize s = .error d := by rw [tokenize, hreading]; rfl
    have hlexed : ¬ Lexed (some s) := by
      rintro ⟨_, ts', hs, hok⟩
      cases hs
      rw [herror] at hok
      cases hok
    rw [answer]
    cases o.mode <;> simp [listing, dump, verdict, hreading, herror, hlexed]

end Options

namespace Draft

theorem stdout_finish (d : Draft) (o : Options) (written : Option Written) :
    (d.finish o written).stdout = d.text.getD [] := by
  rcases written with _ | ⟨target, _ | fault⟩ <;> rfl

end Draft

/-! ## Runs -/

section Run

variable {o : Options} (hsource : call.input? tree o.input = source)
include hsource

end Run

end Munch.Command
