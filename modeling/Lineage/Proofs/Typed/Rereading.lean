import Lineage.Proofs.Micheline.Annotations
import Lineage.Proofs.Typed.Skeleton

/-!
# Types that are written and read again

A node that was read of a type is written as a type expression in which pairs have two components
and annotations are cleaned. Reading it once more gives the same node (`readsAgain`): the numbers of
the nodes and their paths depend on nothing that writing changes. What is written does not depend on
values, so a node may have been used in between.
-/

namespace Lineage

lemma Scalar.ofName?_name (type : Scalar) : ofName? type.name = some type := by
  cases type <;> decide

namespace Node

variable {n m : Node} {t : Micheline} {next depth j : Nat} {path : String} {annots : List String}

/-! ### Reading what was written -/

/-- Of annotations only what is kept of them counts. -/
lemma Reads.reannotate {name : String} {args : List Micheline} {annots' : List String}
    (h : Reads next path depth (.prim name args annots) n j)
    (hannots : Annotations.parse annots' = Annotations.parse annots) :
    Reads next path depth (.prim name args annots') n j := by
  have hsite : siteAt next path depth annots = siteAt next path depth annots' := by
    unfold siteAt
    rw [hannots]
  cases h with
  | scalar hname => rw [hsite]; exact .scalar hname
  | pair hl hr => rw [hsite]; exact .pair hl hr
  | or hl hr => rw [hsite]; exact .or hl hr
  | option ht => rw [hsite]; exact .option ht
  | collection kind ht => rw [hsite]; exact .collection kind ht
  | map hk hv => rw [hsite]; exact .map hk hv
  | bigMap hk hv => rw [hsite]; exact .bigMap hk hv
  | lambda hp hr => rw [hsite]; exact .lambda hp hr
  | contract hp => rw [hsite]; exact .contract hp
  | ticket hc => unfold ticketAround; rw [hsite]; exact .ticket hc

/-- The rules read a node once more from the type expression that is written of it. -/
theorem Reads.toType (h : Reads next path depth t n j) : Reads next path depth n.toType n j := by
  have hclean := Annotations.parse_toList_parse
  induction h with
  | scalar => exact (Reads.scalar (Scalar.ofName?_name _)).reannotate (hclean _)
  | pair _ _ ihl ihr =>
    -- whatever the number of components was, there are two of them now
    refine (Reads.pair ihl ?_).reannotate (hclean _)
    exact ihr
  | or _ _ ihl ihr => exact (Reads.or ihl ihr).reannotate (hclean _)
  | option _ ih => exact (Reads.option ih).reannotate (hclean _)
  | collection kind _ ih => exact (Reads.collection kind ih).reannotate (hclean _)
  | map _ _ ihk ihv => exact (Reads.map ihk ihv).reannotate (hclean _)
  | bigMap _ _ ihk ihv => exact (Reads.bigMap ihk ihv).reannotate (hclean _)
  | lambda _ _ ihp ihr => exact (Reads.lambda ihp ihr).reannotate (hclean _)
  | contract _ ih => exact (Reads.contract ih).reannotate (hclean _)
  | ticket _ ih => exact (Reads.ticket ih).reannotate (hclean _)

/-! ### Values -/

lemma toType_erase (n : Node) : n.erase.toType = n.toType := by
  fun_induction toType n with
  | case4 s inner hinner =>
    -- a ticket around anything but its shape is written without content, with values or without
    cases inner with
    | pair s' l r =>
      cases r with
      | pair => exact (hinner _ _ _ _ _ rfl).elim
      | _ => rfl
    | _ => rfl
  | _ => simp_all [erase, Node.toType]

lemma toType_bind (n : Node) (v : Micheline) : (n.bind v).result.toType = n.toType := by
  rw [← toType_erase, erase_bind, toType_erase]

/-- **Types survive writing**: what is written of the node of a type is read as the node again, with
the same numbers, paths, depths and annotations, and no value that is bound to the node, in full or
up to a misfit, changes what is written. -/
theorem readsAgain (h : ofTypeAt path t = .ok n) :
    ofTypeAt path n.toType = .ok n ∧ ∀ v, (n.bind v).result.toType = n.toType := by
  obtain ⟨j, hreads⟩ := exists_reads h
  refine ⟨?_, toType_bind n⟩
  rw [ofTypeAt, ofTypeFrom_ok.2 hreads.toType]
  rfl

/-- A map to tickets of pairs, with annotations of which some do not count. -/
def register : Micheline :=
  .prim "map" [.prim "pair" [.prim "nat" [] ["%a", "%", "@v", "%b"], .prim "string" [] [],
      .prim "sapling_state" [.int "8"] [], .prim "unit" [] []] ["name", ":key"],
    .prim "ticket" [.prim "ticket" [.prim "option" [.prim "nat" [] []] []] []] ["%value"]] []

def cleanRegister : Micheline :=
  .prim "map" [.prim "pair" [.prim "nat" [] ["%a", "@v"], .prim "pair" [.prim "string" [] [],
      .prim "pair" [.prim "sapling_state" [.int "8"] [], .prim "unit" [] []] []] []] [":key"],
    .prim "ticket" [.prim "ticket" [.prim "option" [.prim "nat" [] []] []] []] ["%value"]] []

theorem readsAgain_register :
    ∃ n, ofTypeAt "3" register = .ok n ∧ n.toType = cleanRegister ∧
      ofTypeAt "3" cleanRegister = .ok n ∧ ∀ v, (n.bind v).result.toType = cleanRegister := by
  have hrun : (do return (← ofTypeAt "3" register).toType : Except NodeError Micheline).toOption =
      some cleanRegister := by
    decide +kernel
  obtain ⟨n, htype, hrun⟩ := except_bind_ok.1 (except_ok_of_toOption hrun)
  obtain hwritten : n.toType = cleanRegister := Except.ok.inj hrun
  obtain ⟨hagain, hvalues⟩ := readsAgain htype
  rw [hwritten] at hagain hvalues
  exact ⟨n, htype, hwritten, hagain, hvalues⟩

end Node

end Lineage
