import HieroCryptography.Security.DerEncoder

namespace HieroCryptography.Security

open Rust Foundation

/-- A call that writes a whole item: a method of `DerWriter`, or `writeBytes` of an item that has
been encoded before. -/
inductive Leaf
  | putInteger (i : ℤ)
  | putByteInteger (i : UInt8)
  | put (tag : UInt8) (buf : List UInt8)
  | putSlice (tag : UInt8) (buf : List UInt8) (offset length : ℕ)
      (inside : offset + length ≤ buf.length)
  | putNull
  | putBitString (bits : List UInt8)
  | putBoolean (b : Bool)
  | writeBytes (item : Item)

namespace Leaf

def writes : Leaf → Writes
  | putInteger i => DerWriter.putInteger i
  | putByteInteger i => DerWriter.putByteInteger i
  | put tag buf => DerWriter.put tag buf
  | putSlice tag buf offset length inside => DerWriter.putSlice tag buf offset length inside
  | putNull => DerWriter.putNull
  | putBitString bits => DerWriter.putBitString bits
  | putBoolean b => DerWriter.putBoolean b
  | writeBytes item => [.bytes item.encoding]

def item : Leaf → Item
  | putInteger i => ⟨DerWriter.tagInteger, DerWriter.toByteArray i⟩
  | putByteInteger i => ⟨DerWriter.tagInteger, [i]⟩
  | put tag buf => ⟨tag, buf⟩
  | putSlice tag buf offset length _ => ⟨tag, (buf.drop offset).take length⟩
  | putNull => ⟨DerWriter.tagNull, []⟩
  | putBitString bits => ⟨DerWriter.tagBitString, 0 :: bits⟩
  | putBoolean b => ⟨DerWriter.tagBoolean, [if b then 0xff else 0]⟩
  | writeBytes item => item

end Leaf

/-- What an `emit` method does when every call writes whole items: leaves, and boxes with what is
in them. -/
inductive Nodes
  | nil
  | leaf (call : Leaf) (next : Nodes)
  | box (tag : UInt8) (body next : Nodes)

namespace Nodes

def emission : Nodes → Emission
  | nil => .done
  | leaf call next => (Emission.ofWrites call.writes).append next.emission
  | box tag body next => .encode tag body.emission next.emission

def items : Nodes → List Item
  | nil => []
  | leaf call next => call.item :: next.items
  | box tag body next => ⟨tag, body.items.flatMap Item.encoding⟩ :: next.items

def bytes (nodes : Nodes) : List UInt8 := nodes.items.flatMap Item.encoding

def bodies : Nodes → List Nodes
  | nil => []
  | leaf _ next => next.bodies
  | box _ body next => body :: (body.bodies ++ next.bodies)

def LowTags : Nodes → Prop
  | nil => True
  | leaf call next => lowTag call.item.tag = true ∧ next.LowTags
  | box tag body next => lowTag tag = true ∧ body.LowTags ∧ next.LowTags

/-- Where both have a node, both have a box or both have a leaf. -/
def Aligned : Nodes → Nodes → Prop
  | leaf _ next, leaf _ next' => next.Aligned next'
  | box _ body next, box _ body' next' => body.Aligned body' ∧ next.Aligned next'
  | leaf _ _, box _ _ _ | box _ _ _, leaf _ _ => False
  | nil, _ | _, nil => True

def Same : Nodes → Nodes → Prop
  | nil, nil => True
  | leaf call next, leaf call' next' => call.item = call'.item ∧ next.Same next'
  | box tag body next, box tag' body' next' => tag = tag' ∧ body.Same body' ∧ next.Same next'
  | _, _ => False

end Nodes

theorem Emission.bytes_append (e rest : Emission) :
    (e.append rest).bytes = e.bytes ++ rest.bytes := by
  induction e with
  | done => rfl
  | write call next ih => rw [append, bytes, bytes, ih, List.append_assoc]
  | encode tag body next _ ih => rw [append, bytes, bytes, ih, List.append_assoc]

theorem Emission.bytes_ofWrites (calls : Writes) :
    (Emission.ofWrites calls).bytes = calls.flatMap Write.contents := by
  induction calls with
  | nil => rfl
  | cons call calls ih => rw [List.flatMap_cons, ← ih]; rfl

theorem contents_item (tag : UInt8) {content : List UInt8} (h : content.length < 2 ^ 31)
    (rest : Writes) (hrest : rest.flatMap Write.contents = content) :
    (.byte tag :: (DerWriter.putLength (Int32.ofNat content.length) ++ rest) : Writes).flatMap
      Write.contents = (Item.mk tag content).encoding := by
  rw [List.flatMap_cons, List.flatMap_append, contents_putLength h, hrest]
  rfl

theorem contents_slice_whole (buf : List UInt8) :
    ([.slice buf 0 buf.length (Nat.zero_add _).le] : Writes).flatMap Write.contents = buf := by
  simp [Write.contents]

theorem Leaf.contents_writes (call : Leaf) (h : call.item.content.length < 2 ^ 31) :
    call.writes.flatMap Write.contents = call.item.encoding := by
  cases call with
  | putInteger i => exact contents_item _ h _ (contents_slice_whole _)
  | putByteInteger i => exact contents_item _ h _ rfl
  | put tag buf => exact contents_item tag h _ (contents_slice_whole buf)
  | putSlice tag buf offset length inside =>
    have hlen : ((buf.drop offset).take length).length = length := by
      rw [List.length_take, List.length_drop]
      omega
    have hitem := contents_item tag h [.slice buf offset length inside] (List.append_nil _)
    rwa [item, hlen] at hitem
  | putNull => exact contents_item _ h [] rfl
  | putBitString bits =>
    exact contents_item _ h [.byte 0, .bytes bits] (congrArg _ (List.append_nil _))
  | putBoolean b => exact contents_item _ h _ rfl
  | writeBytes item => exact List.append_nil _

theorem lowTag_sequence : lowTag DerWriter.tagSequence = true := by decide

namespace Nodes

variable {nodes nodes' : Nodes}

theorem bytes_leaf (call : Leaf) (next : Nodes) :
    (leaf call next).bytes = call.item.encoding ++ next.bytes := List.flatMap_cons

theorem bytes_box (tag : UInt8) (body next : Nodes) :
    (box tag body next).bytes = (Item.mk tag body.bytes).encoding ++ next.bytes :=
  List.flatMap_cons

theorem bytes_emission (hsize : nodes.bytes.length < 2 ^ 31) :
    nodes.emission.bytes = nodes.bytes := by
  induction nodes with
  | nil => rfl
  | leaf call next ih =>
    have hcontent := call.item.length_content_lt
    rw [bytes_leaf, List.length_append] at hsize
    rw [emission, Emission.bytes_append, Emission.bytes_ofWrites, bytes_leaf,
      call.contents_writes (by omega), ih (by omega)]
  | box tag body next ihbody ih =>
    have hcontent : body.bytes.length < _ := (Item.mk tag body.bytes).length_content_lt
    rw [bytes_box, List.length_append] at hsize
    rw [emission, Emission.bytes, bytes_box, ihbody (by omega), ih (by omega)]

theorem reference_boxed (tag : UInt8) (hsize : (Item.mk tag nodes.bytes).encoding.length < 2 ^ 31) :
    (DerEncoder.mk (some tag) nodes.emission).reference = (Item.mk tag nodes.bytes).encoding := by
  have hcontent : nodes.bytes.length < _ := (Item.mk tag nodes.bytes).length_content_lt
  rw [DerEncoder.reference, bytes_emission (hcontent.trans hsize)]

theorem toByteArray_boxed (tag : UInt8)
    (hsize : (Item.mk tag nodes.bytes).encoding.length < 2 ^ 31) :
    (DerEncoder.mk (some tag) nodes.emission).toByteArray =
      .ok (Item.mk tag nodes.bytes).encoding := by
  have hreference := reference_boxed tag hsize
  rw [← hreference] at hsize ⊢
  exact DerEncoder.toByteArray_eq _ hsize

theorem LowTags.of_mem_items (htags : nodes.LowTags) {item : Item} (h : item ∈ nodes.items) :
    lowTag item.tag = true := by
  induction nodes with
  | nil => exact absurd h List.not_mem_nil
  | leaf call next ih =>
    rcases List.mem_cons.mp h with rfl | h
    · exact htags.1
    · exact ih htags.2 h
  | box tag body next _ ih =>
    rcases List.mem_cons.mp h with rfl | h
    · exact htags.1
    · exact ih htags.2.2 h

theorem splitItems_bytes (htags : nodes.LowTags) (hsize : nodes.bytes.length < 2 ^ 31) :
    splitItems nodes.bytes = some nodes.items :=
  splitItems_flatMap (fun _ hi ↦ htags.of_mem_items hi) fun item hi ↦
    (item.length_content_lt.trans_le (length_encoding_le_of_mem hi)).trans hsize

theorem of_mem_bodies (htags : nodes.LowTags) {body : Nodes} (h : body ∈ nodes.bodies) :
    body.LowTags ∧ body.bytes.length < nodes.bytes.length := by
  induction nodes with
  | nil => exact absurd h List.not_mem_nil
  | leaf call next ih =>
    obtain ⟨htags', hlt⟩ := ih htags.2 h
    rw [bytes_leaf, List.length_append]
    exact ⟨htags', by omega⟩
  | box tag inner next ihinner ih =>
    have hinner : inner.bytes.length < _ := (Item.mk tag inner.bytes).length_content_lt
    rw [bytes_box, List.length_append]
    rw [bodies, List.mem_cons, List.mem_append] at h
    rcases h with rfl | h | h
    · exact ⟨htags.2.1, by omega⟩
    · obtain ⟨htags', hlt⟩ := ihinner htags.2.1 h
      exact ⟨htags', by omega⟩
    · obtain ⟨htags', hlt⟩ := ih htags.2.2 h
      exact ⟨htags', by omega⟩

/-- Two trees with the same bytes are the same, as long as no box stands where the other has a
leaf. -/
theorem Same.of_bytes_eq (haligned : nodes.Aligned nodes') (htags : nodes.LowTags)
    (htags' : nodes'.LowTags) (hsize : nodes.bytes.length < 2 ^ 31)
    (heq : nodes.bytes = nodes'.bytes) : nodes.Same nodes' := by
  induction nodes generalizing nodes' with
  | nil =>
    cases nodes' with
    | nil => trivial
    | leaf => exact absurd heq.symm (Item.encoding_append_ne_nil _ _)
    | box => exact absurd heq.symm (Item.encoding_append_ne_nil _ _)
  | leaf call next ih =>
    cases nodes' with
    | nil => exact absurd heq (Item.encoding_append_ne_nil _ _)
    | leaf call' next' =>
      obtain ⟨hitem, hrest⟩ := eq_of_encoding_append_eq htags.1 htags'.1 hsize heq
      rw [bytes_leaf, List.length_append] at hsize
      exact ⟨hitem, ih haligned htags.2 htags'.2 (by omega) hrest⟩
    | box => exact haligned.elim
  | box tag body next ihbody ih =>
    cases nodes' with
    | nil => exact absurd heq (Item.encoding_append_ne_nil _ _)
    | leaf => exact haligned.elim
    | box tag' body' next' =>
      obtain ⟨hitem, hrest⟩ := eq_of_encoding_append_eq htags.1 htags'.1 hsize heq
      obtain ⟨htag, hbody⟩ := Item.mk.inj hitem
      have hcontent : body.bytes.length < _ := (Item.mk tag body.bytes).length_content_lt
      rw [bytes_box, List.length_append] at hsize
      exact ⟨htag, ihbody haligned.1 htags.2.1 htags'.2.1 (by omega) hbody,
        ih haligned.2 htags.2.2 htags'.2.2 (by omega) hrest⟩

end Nodes

end HieroCryptography.Security
