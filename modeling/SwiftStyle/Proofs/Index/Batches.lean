import SwiftStyle.Proofs.Index.Incremental

/-!
# Proofs/Index/Batches — updates that do not conflict commute

Inside one batch of changed files the greatest path wins, and of two batches the later one.  The two
rules agree when the batches are *compatible*: then the last file of one batch that declares a name
is the last of both together (`Compatible.isLast_append`), so updating with both at once, or with
one after the other in either order, gives the same index.
-/

open Std

namespace SwiftStyle

namespace IndexBuilder

variable {b : IndexBuilder} {x : Extractor} {t : FileTree}

/-- The same builder for other changed files. -/
def onChanged (b : IndexBuilder) (changed : List Path) : IndexBuilder := { b with changed }

/-! ## Two batches -/

section Batches

variable {A B : List Path}

theorem Compatible.symm (h : b.Compatible x t A B) : b.Compatible x t B A :=
  fun name file hfile other hother hdeclares hdeclares' =>
    (h name other hother file hfile hdeclares' hdeclares).symm

variable (ht : t.WellFormed)
include ht

/-- **The last file of a batch is the last of both**: in the other batch nothing but this file
declares the name. -/
theorem Compatible.isLast_append (h : b.Compatible x t A B) {name : String} {file : Path}
    (hlast : IsLast (b.discovery.discover t B) (x.Declares t b.trackedKind name) file) :
    IsLast (b.discovery.discover t (A ++ B)) (x.Declares t b.trackedKind name) file := by
  refine ⟨(Discovery.mem_discover_append ht).2 (.inr hlast.mem), hlast.holds, ?_⟩
  intro other hother hdeclares
  rcases (Discovery.mem_discover_append ht).1 hother with hA | hB
  · obtain rfl := h name other hA file hlast.mem hdeclares hlast.holds
    exact ReflOrd.isLE_rfl
  · exact hlast.above other hB hdeclares

/-- **One batch after the other is as good as both at once.** -/
theorem Compatible.update_update (h : b.Compatible x t A B) (e : DeclarationIndex) :
    (b.onChanged B).update x t ((b.onChanged A).update x t e)
      = (b.onChanged (A ++ B)).update x t e := by
  refine DeclarationIndex.ext fun name => ?_
  have hA := Discovery.increasing_discover b.discovery t A
  have hB := Discovery.increasing_discover b.discovery t B
  rcases hB.isLast_or_forall_not (x.Declares t b.trackedKind name) with ⟨last, hlast⟩ | hnotB
  · -- the later batch has the last word, and it is the last word of both
    rw [get?_update (b := b.onChanged B) hlast,
      get?_update (b := b.onChanged (A ++ B)) (h.isLast_append ht hlast)]
  · rw [get?_update_of_not (b := b.onChanged B) hnotB]
    rcases hA.isLast_or_forall_not (x.Declares t b.trackedKind name) with ⟨last, hlast⟩ | hnotA
    · have hboth := h.symm.isLast_append ht hlast
      rw [Discovery.discover_append_comm ht] at hboth
      rw [get?_update (b := b.onChanged A) hlast, get?_update (b := b.onChanged (A ++ B)) hboth]
    · have hnot : ∀ file ∈ b.discovery.discover t (A ++ B),
          ¬x.Declares t b.trackedKind name file := by
        intro file hfile
        rcases (Discovery.mem_discover_append ht).1 hfile with hfile | hfile
        · exact hnotA file hfile
        · exact hnotB file hfile
      rw [get?_update_of_not (b := b.onChanged A) hnotA,
        get?_update_of_not (b := b.onChanged (A ++ B)) hnot]

/-- An update with both batches does not see which comes first. -/
theorem update_append_comm (e : DeclarationIndex) :
    (b.onChanged (B ++ A)).update x t e = (b.onChanged (A ++ B)).update x t e := by
  rw [update, update, build_eq, build_eq]
  change (e.merge ((b.discovery.discover t (B ++ A)).flatMap (b.pairs x t)))
    = e.merge ((b.discovery.discover t (A ++ B)).flatMap (b.pairs x t))
  rw [Discovery.discover_append_comm ht]

/-- **Compatible batches commute**: one after the other, the other way round and both at once give
the same index. -/
theorem update_batches_comm (h : b.Compatible x t A B) (e : DeclarationIndex) :
    (b.onChanged B).update x t ((b.onChanged A).update x t e)
      = (b.onChanged (A ++ B)).update x t e ∧
    (b.onChanged A).update x t ((b.onChanged B).update x t e)
      = (b.onChanged (A ++ B)).update x t e :=
  ⟨h.update_update ht e, (h.symm.update_update ht e).trans (update_append_comm ht e)⟩

end Batches

namespace Moved

/-- A file and one that the other batch has, too. -/
def first : List Path := [⟨"b.swift"⟩, ⟨"/c.swift"⟩]

/-- The shared file in another spelling, and one more. -/
def second : List Path := [⟨"./c.swift"⟩, ⟨"d.swift"⟩]

/-- What was known before: an old place of a name, and a name that is in no file. -/
def known : DeclarationIndex := .ofList [("P", "/old.swift"), ("S", "/gone.swift")]

theorem discover_first_eq :
    builder.discovery.discover after.val first = [⟨"/b.swift"⟩, ⟨"/c.swift"⟩] :=
  Discovery.discover_eq_of_increasing (by decide +kernel) (by decide +kernel)

theorem discover_second_eq :
    builder.discovery.discover after.val second = [⟨"/c.swift"⟩, ⟨"/d.swift"⟩] :=
  Discovery.discover_eq_of_increasing (by decide +kernel) (by decide +kernel)

end Moved

/-- Two batches that share a file may come in either order. -/
theorem update_batches_comm_shared :
    (Moved.builder.onChanged Moved.second).update Conflict.extractor Moved.after.val
        ((Moved.builder.onChanged Moved.first).update Conflict.extractor Moved.after.val Moved.known)
      = .ofList [("P", "/b.swift"), ("Q", "/c.swift"), ("R", "/d.swift"), ("S", "/gone.swift")] ∧
    (Moved.builder.onChanged Moved.first).update Conflict.extractor Moved.after.val
        ((Moved.builder.onChanged Moved.second).update Conflict.extractor Moved.after.val Moved.known)
      = .ofList [("P", "/b.swift"), ("Q", "/c.swift"), ("R", "/d.swift"), ("S", "/gone.swift")] := by
  have hcompatible : Moved.builder.Compatible Conflict.extractor Moved.after.val Moved.first
      Moved.second := by
    rw [compatible_iff, Moved.discover_first_eq, Moved.discover_second_eq]
    decide +kernel
  have hboth : (Moved.builder.onChanged (Moved.first ++ Moved.second)).update Conflict.extractor
      Moved.after.val Moved.known
      = .ofList [("P", "/b.swift"), ("Q", "/c.swift"), ("R", "/d.swift"), ("S", "/gone.swift")] := by
    have hfiles : Moved.builder.discovery.discover Moved.after.val (Moved.first ++ Moved.second)
        = [⟨"/b.swift"⟩, ⟨"/c.swift"⟩, ⟨"/d.swift"⟩] := by
      rw [Discovery.discover_eq_dropRepeats
        (l := [⟨"/b.swift"⟩, ⟨"/c.swift"⟩, ⟨"/c.swift"⟩, ⟨"/d.swift"⟩]) (by decide +kernel)
        (by decide +kernel)]
      decide +kernel
    rw [update, build_eq]
    change Moved.known.merge ((Moved.builder.discovery.discover Moved.after.val
      (Moved.first ++ Moved.second)).flatMap _) = _
    rw [hfiles]
    decide +kernel
  obtain ⟨hAB, hBA⟩ := update_batches_comm Moved.after.property hcompatible Moved.known
  exact ⟨hAB.trans hboth, hBA.trans hboth⟩

end IndexBuilder

end SwiftStyle
