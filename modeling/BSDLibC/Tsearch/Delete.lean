import BSDLibC.Tsearch.Insert

/-! `tdelete`, whose node is replaced by one of its children or by its successor. -/

namespace BSDLibC.Tsearch
open BSDLibC.ColorTree BSDLibC.LinkedTree

variable {K : Type} {compar : K → K → Int} {s s' : State K} {key : Addr → K} {T : CTree Addr}
  {ctx : Context Addr} {vkey : K} {fuel : Nat}

/-- Each step of a search leaves fewer nodes. -/
theorem length_child_lt (red : Bool) (a : Addr) (kids : Dir → CTree Addr) (d : Dir)
    : ((kids d).traverse .right).length < ((CTree.node red a kids).traverse .right).length := by
  rw [CTree.traverse_node, List.length_append, List.length_cons]
  cases d with
  | left =>
      have same : kids Dir.right.other = kids .left := rfl
      rw [same]
      omega
  | right => omega

/-- The search of `tdelete` ends where the others do. -/
theorem tdelete.walk_eq (compar : K → K → Int) (vkey : K) (layout : At s.links ctx T)
    (alloc : ∀ b, (plug ctx T).Has b → s.heap b ≠ none)
    (keys : ∀ b node, s.heap b = some node → node.key = key b) (nonempty : T ≠ .nil)
    (enough : (T.traverse .right).length ≤ fuel) (p : Addr)
    : ((locate compar key vkey T ctx).2 = .nil
        ∧ tdelete.walk compar s vkey fuel p (cursor ctx) = some none)
      ∨ ∃ p', (locate compar key vkey T ctx).2 ≠ .nil
        ∧ tdelete.walk compar s vkey fuel p (cursor ctx)
          = some (some (p', cursor (locate compar key vkey T ctx).1)) := by
  induction T generalizing ctx fuel p with
  | nil => exact absurd rfl nonempty
  | node red a kids ih =>
      have read := get_cursor (fun b inside => alloc b (has_plug.mpr (Or.inr inside))) layout.context
      obtain ⟨node, found⟩ := Option.ne_none_iff_exists'.mp
        (alloc a (has_plug.mpr (Or.inl CTree.has_root)))
      obtain _ | fuel := fuel
      · simp at enough
      · rw [tdelete.walk, read, locate]
        simp only [link_node, Option.bind_eq_bind, Option.bind_some, found, keys a node found]
        by_cases equal : compar vkey (key a) = 0
        · rw [if_pos equal, if_pos equal]
          exact Or.inr ⟨p, by simp, rfl⟩
        · have shorter := length_child_lt red a kids (side (compar vkey (key a)))
          have below := layout.down (side (compar vkey (key a)))
          have allocBelow := alloc
          rw [← plug_child (d := side (compar vkey (key a)))] at allocBelow
          have next : s.get (.child a (side (compar vkey (key a))))
              = some (link (kids (side (compar vkey (key a))))) :=
            get_cursor (fun b inside => allocBelow b (has_plug.mpr (Or.inr inside))) below.context
          rw [if_neg equal, if_neg equal]
          by_cases empty : kids (side (compar vkey (key a))) = .nil
          · refine Or.inl ⟨by simp only [empty, locate], ?_⟩
            rw [empty] at next
            simp only [side] at next
            rw [next]
            rfl
          · obtain ⟨child, linked⟩ := Option.ne_none_iff_exists'.mp (mt link_eq_none.mp empty)
            have later := ih (side (compar vkey (key a))) below allocBelow empty (show _ ≤ fuel by omega) a
            rw [linked] at next
            simp only [side] at next
            rw [next]
            exact later

-----------------------------------------------------------------------------------------
-- The node that takes the place
-----------------------------------------------------------------------------------------

/-- The state after the links below a node are spliced: a tree of the other nodes in their order
lies beside the node, and the node is still linked.
-/
structure Spliced (s s' : State K) (ctx : Context Addr) (p : Addr) (kids : Dir → CTree Addr)
    (J : CTree Addr)
    : Prop where
  context : CtxAt s'.links ctx (some p)
  tree : TreeAt s'.links.child J
  order : J.traverse .right = (kids .left).traverse .right ++ (kids .right).traverse .right
  keys : ∀ a, (s'.heap a).map Node.key = (s.heap a).map Node.key

/-- The walk to the left from a node below another one. -/
theorem tdelete.successor_eq {f : Frame Addr} {up : Context Addr} (layout : At s.links (f :: up) T)
    (alloc : ∀ b, (plug (f :: up) T).Has b → s.heap b ≠ none) (nonempty : T ≠ .nil)
    (leftward : f.dir = .left) (enough : (T.traverse .right).length ≤ fuel)
    : ∃ inner red q son, T = plug inner (.node red q (pair .right son .nil))
      ∧ (∀ g ∈ inner, g.dir = .left)
      ∧ ∃ first g rest, link T = some first ∧ inner ++ f :: up = g :: rest ∧ g.dir = .left
        ∧ tdelete.successor s fuel f.root first = some (g.root, q) := by
  induction T generalizing f up fuel with
  | nil => exact absurd rfl nonempty
  | node red a kids ih =>
      have below := layout.down .left
      have allocBelow := alloc
      rw [← plug_child (d := .left)] at allocBelow
      have next : s.get (.child a .left) = some (link (kids .left)) :=
        get_cursor (fun b inside => allocBelow b (has_plug.mpr (Or.inr inside))) below.context
      obtain _ | fuel := fuel
      · simp at enough
      · by_cases empty : kids .left = .nil
        · refine ⟨[], red, a, kids .right, ?_, by simp, a, f, up, rfl, rfl, leftward, ?_⟩
          · have eta := pair_eta .right kids
            rw [show Dir.right.other = .left from rfl, empty] at eta
            rw [plug_nil, eta]
          · rw [empty] at next
            rw [tdelete.successor, next]
            rfl
        · have shorter := length_child_lt red a kids .left
          obtain ⟨inner, red', q, son, split, dirs, first, g, rest, linked, frames, left, found⟩ :=
            ih .left below allocBelow empty rfl (show _ ≤ fuel by omega)
          refine ⟨inner ++ [⟨.left, red, a, kids Dir.left.other⟩], red', q, son, ?_, ?_, a, g, rest, rfl,
            by simpa using frames, left, ?_⟩
          · rw [plug_append, ← split]
            exact (plug_child [] red a kids .left).symm
          · intro h member
            rcases List.mem_append.mp member with inside | last
            · exact dirs h inside
            · rw [List.mem_singleton.mp last]
          · rw [linked] at next
            rw [tdelete.successor, next]
            exact found

section
variable {red : Bool} {p : Addr} {kids : Dir → CTree Addr} (layout : At s.links ctx (.node red p kids))
  (alloc : ∀ b, (plug ctx (.node red p kids)).Has b → s.heap b ≠ none)
include layout

/-- With one child, that one takes the place. -/
theorem spliced_child (d : Dir) (empty : kids d.other = .nil)
    : Spliced s s ctx p kids (kids d) := by
  refine ⟨layout.context, (layout.tree d).2, ?_, fun _ => rfl⟩
  cases d with
  | left => rw [show kids .right = .nil from empty, CTree.traverse_nil, List.append_nil]
  | right => rw [show kids .left = .nil from empty, CTree.traverse_nil, List.nil_append]

include alloc

/-- `D2`: the right child has no left one. -/
theorem spliced_right {red' : Bool} {r : Addr} {rkids : Dir → CTree Addr}
    (right : kids .right = .node red' r rkids) (empty : rkids .left = .nil)
    : ∃ s', s.put (link (kids .left)) (.child r .left) = some s'
      ∧ Spliced s s' ctx p kids (.node false r (pair .left (kids .left) (rkids .right))) := by
  obtain ⟨inTree, frames, apart⟩ := (distinct_plug _ _).mp layout.distinct
  obtain ⟨-, rightDistinct, -, -, sides⟩ := (CTree.distinct_node .left).mp inTree
  rw [show Dir.left.other = .right from rfl, right] at rightDistinct sides
  obtain ⟨-, -, -, notBelow, -⟩ := (CTree.distinct_node .left).mp rightDistinct
  have rMember : (CTree.node red p kids).Has r := CTree.has_child (d := .right) (by
    rw [right]
    exact CTree.has_root)
  obtain ⟨s', put, links, others, keys⟩ :=
    put_child (alloc r (has_plug.mpr (Or.inl rMember))) .left (link (kids .left))
  have rightTree := (layout.tree .right).2
  rw [right] at rightTree
  have agree {b : Addr} (ne : b ≠ r) : s'.links.child b = s.links.child b := by
    rw [links]
    exact Links.put_child_ne ne _ _ _
  refine ⟨s', put, ?_, ?_, ?_, keys⟩
  · refine layout.context.congr (by rw [links]; rfl) fun a inside => agree ?_
    rintro rfl
    exact apart _ rMember inside
  · intro d
    rcases Dir.left.eq_or_other d with rfl | rfl
    · rw [pair_self, links, Links.put_child_self, ← links]
      refine ⟨rfl, (layout.tree .left).2.congr fun a inside => agree ?_⟩
      rintro rfl
      exact sides _ inside CTree.has_root
    · rw [pair_other, links, Links.put_child_other, ← links]
      refine ⟨(rightTree .right).1, (rightTree .right).2.congr fun a inside => agree ?_⟩
      rintro rfl
      exact notBelow inside
  · rw [CTree.traverse_node, show Dir.right.other = .left from rfl, pair_self,
      show pair Dir.left (kids .left) (rkids .right) .right = rkids .right from pair_other _ _ _, right,
      CTree.traverse_node, show Dir.right.other = .left from rfl, empty]
    rfl

/-- `D3`: the successor lies below the right child, and its own right child takes its place. -/
theorem spliced_successor {red' : Bool} {r : Addr} {rkids : Dir → CTree Addr}
    (right : kids .right = .node red' r rkids) (nonempty : rkids .left ≠ .nil)
    (enough : ((kids .right).traverse .right).length ≤ fuel)
    : ∃ first father q son s₁ left s₂ right' s₃ J, link (rkids .left) = some first
      ∧ tdelete.successor s fuel r first = some (father, q)
      ∧ s.get (.child q .right) = some son ∧ s.put son (.child father .left) = some s₁
      ∧ s₁.get (.child p .left) = some left ∧ s₁.put left (.child q .left) = some s₂
      ∧ s₂.get (.child p .right) = some right' ∧ s₂.put right' (.child q .right) = some s₃
      ∧ link J = some q ∧ Spliced s s₃ ctx p kids J := by
  have layoutR := layout.down .right
  rw [right] at layoutR
  have layoutL := layoutR.down .left
  have allocL := alloc
  rw [← plug_child (d := .right), right, ← plug_child (d := .left)] at allocL
  have short : ((rkids .left).traverse .right).length ≤ fuel := by
    have := length_child_lt red' r rkids .left
    rw [right] at enough
    omega
  obtain ⟨inner, redq, q, son, split, dirs, first, g, rest, linked, frames, leftward, found⟩ :=
    tdelete.successor_eq layoutL allocL nonempty rfl short
  -- The hole is where the successor is.
  rw [split] at layoutL
  have focus := layoutL.focus
  have alloc' : ∀ b, (plug (inner ++ (⟨.left, red', r, rkids Dir.left.other⟩ :: ⟨.right, red, p,
      kids Dir.right.other⟩ :: ctx)) (.node redq q (pair .right son .nil))).Has b → s.heap b ≠ none := by
    rw [plug_append, ← split]
    exact allocL
  rw [frames] at focus alloc'
  obtain ⟨qDistinct, around, apart⟩ := (distinct_plug _ _).mp focus.distinct
  obtain ⟨sonDistinct, -, notSon, -, -⟩ := CTree.distinct_pair.mp qDistinct
  have notAround : ¬ Has (g :: rest) q := apart q CTree.has_root
  have qAlloc : s.heap q ≠ none := alloc' q (has_plug.mpr (Or.inl CTree.has_root))
  obtain ⟨s₁, put₁, links₁, others₁, keys₁⟩ := put_cursor
    (fun b inside => alloc' b (has_plug.mpr (Or.inr inside))) (link son)
  rw [cursor_cons, leftward] at put₁
  have sonTree := (focus.tree .right).2
  rw [pair_self] at sonTree
  have layout₁ : At s₁.links (g :: rest) son := by
    rw [links₁]
    refine focus.context.put_tree sonTree ((distinct_plug _ _).mpr ⟨sonDistinct, around, ?_⟩)
    exact fun b inside => apart b (CTree.has_pair.mpr (Or.inr (Or.inl inside)))
  -- Back to the node, whose right tree has lost its first node.
  have back : At s₁.links ctx (.node red p (pair .right
      (plug (inner ++ [⟨.left, red', r, rkids Dir.left.other⟩]) son) (kids Dir.right.other))) := by
    rw [← frames] at layout₁
    rw [plug_append]
    exact (layout₁.rise_append.rise).rise
  have pMember : (plug ctx (.node red p kids)).Has p := has_plug.mpr (Or.inl CTree.has_root)
  have pAlloc : s₁.heap p ≠ none := (heap_ne_none keys₁).mpr (alloc p pMember)
  have left₁ := get_child pAlloc .left
  obtain ⟨s₂, put₂, links₂, others₂, keys₂⟩ :=
    put_child ((heap_ne_none keys₁).mpr qAlloc) .left (s₁.links.child p .left)
  have right₂ := get_child ((heap_ne_none keys₂).mpr pAlloc) .right
  obtain ⟨s₃, put₃, links₃, others₃, keys₃⟩ :=
    put_child ((heap_ne_none keys₂).mpr ((heap_ne_none keys₁).mpr qAlloc)) .right (s₂.links.child p .right)
  have outside {b : Addr} (member : (plug (g :: rest) son).Has b) : b ≠ q := by
    rintro rfl
    rcases has_plug.mp member with inside | inside
    · exact notSon inside
    · exact notAround inside
  have agree {b : Addr} (ne : b ≠ q) : s₃.links.child b = s₁.links.child b := by
    rw [links₃, Links.put_child_ne ne, links₂, Links.put_child_ne ne]
  have whole : plug (g :: rest) son = plug ctx (.node red p (pair .right
      (plug (inner ++ [⟨.left, red', r, rkids Dir.left.other⟩]) son) (kids Dir.right.other))) := by
    rw [← frames, plug_append, plug_append]
    rfl
  rw [whole] at outside
  have pNe : p ≠ q := outside (has_plug.mpr (Or.inl CTree.has_root))
  refine ⟨first, g.root, q, link son, s₁, _, s₂, _, s₃,
    .node false q (pair .left (kids .left)
      (plug (inner ++ [⟨.left, red', r, rkids Dir.left.other⟩]) son)),
    linked, found, ?_, put₁, left₁, put₂, right₂, put₃, rfl, ?_, ?_, ?_, ?_⟩
  · rw [get_child qAlloc, (focus.tree .right).1, pair_self]
  · refine back.context.congr (by rw [links₃, links₂]; rfl) fun a inside => agree ?_
    exact outside (has_plug.mpr (Or.inr inside))
  · intro d
    rcases Dir.left.eq_or_other d with rfl | rfl
    · rw [pair_self]
      refine ⟨?_, (back.tree .left).2.congr fun a inside => agree (outside ?_)⟩
      · rw [links₃, show Dir.left = Dir.right.other from rfl, Links.put_child_other, links₂]
        rw [show Dir.right.other = .left from rfl, Links.put_child_self]
        exact (back.tree .left).1
      · exact has_plug.mpr (Or.inl (CTree.has_child inside))
    · rw [pair_other]
      refine ⟨?_, (back.tree .right).2.congr fun a inside => agree (outside ?_)⟩
      · rw [show Dir.left.other = .right from rfl, links₃, Links.put_child_self, links₂,
          Links.put_child_ne pNe]
        exact (back.tree .right).1
      · exact has_plug.mpr (Or.inl (CTree.has_child (d := .right) inside))
  · have leftmost : beyond Dir.right.other (inner ++ [⟨.left, red', r, rkids Dir.left.other⟩]) = [] := by
      refine beyond_eq_nil fun h member => ?_
      rcases List.mem_append.mp member with inside | last
      · exact dirs h inside
      · rw [List.mem_singleton.mp last]
        rfl
    have rightTree : kids .right = plug (inner ++ [⟨.left, red', r, rkids Dir.left.other⟩])
        (.node redq q (pair .right son .nil)) := by
      rw [plug_append, ← split, right]
      exact (plug_child [] red' r rkids .left).symm
    rw [rightTree, CTree.traverse_node, show Dir.right.other = .left from rfl, pair_self,
      show pair Dir.left (kids .left) (plug (inner ++ [⟨.left, red', r, rkids Dir.left.other⟩]) son) .right
        = _ from pair_other _ _ _, traverse_plug, traverse_plug, leftmost]
    simp [CTree.traverse_node]
  · intro a
    rw [keys₃, keys₂, keys₁]

/-- What takes the place of a node is a tree of all nodes below it. -/
theorem tdelete.splice_spec (enough : ((kids .right).traverse .right).length ≤ fuel)
    : ∃ s' J, tdelete.splice fuel s p = some (link J, s') ∧ Spliced s s' ctx p kids J := by
  have pAlloc := alloc p (has_plug.mpr (Or.inl CTree.has_root))
  have rightLink : s.get (.child p .right) = some (link (kids .right)) := by
    rw [get_child pAlloc, (layout.tree .right).1]
  have leftLink : s.get (.child p .left) = some (link (kids .left)) := by
    rw [get_child pAlloc, (layout.tree .left).1]
  rw [tdelete.splice, rightLink, leftLink]
  cases left : kids .left with
  | nil => exact ⟨s, kids .right, rfl, spliced_child layout .right left⟩
  | node redl l lkids =>
      cases right : kids .right with
      | nil =>
          refine ⟨s, kids .left, by rw [left]; rfl, spliced_child layout .left right⟩
      | node red' r rkids =>
          have rTree := (layout.tree .right).2
          rw [right] at rTree
          have rAlloc : s.heap r ≠ none :=
            alloc r (has_plug.mpr (Or.inl (CTree.has_child (d := .right) (by
              rw [right]
              exact CTree.has_root))))
          have next : s.get (.child r .left) = some (link (rkids .left)) := by
            rw [get_child rAlloc, (rTree .left).1]
          simp only [link_node, Option.bind_eq_bind, Option.bind_some, next]
          by_cases empty : rkids .left = .nil
          · obtain ⟨s', put, spliced⟩ := spliced_right layout alloc right empty
            refine ⟨s', _, ?_, spliced⟩
            rw [left, link_node] at put
            rw [empty]
            simp only [link_nil, put, Option.bind_some]
            rfl
          · obtain ⟨first, father, q, son, s₁, left₁, s₂, right₂, s₃, J, linked, found, read, put₁, read₁,
              put₂, read₂, put₃, linkJ, spliced⟩ := spliced_successor layout alloc right empty enough
            refine ⟨s₃, J, ?_, spliced⟩
            rw [linked, linkJ]
            simp only [found, Option.bind_some, read, put₁, read₁, put₂, read₂, put₃]
            rfl

end

-----------------------------------------------------------------------------------------
-- `tdelete`
-----------------------------------------------------------------------------------------

/-- The spliced tree has the nodes of both sides. -/
theorem Spliced.has {p : Addr} {kids : Dir → CTree Addr} {J : CTree Addr}
    (h : Spliced s s' ctx p kids J) (a : Addr)
    : J.Has a ↔ (kids .left).Has a ∨ (kids .right).Has a := by
  rw [← CTree.mem_traverse (T := J) (d := .right), h.order, List.mem_append, CTree.mem_traverse,
    CTree.mem_traverse]

/-- The node is freed, and its father gets the link to the spliced tree. -/
theorem Spliced.unlink {red : Bool} {p : Addr} {kids : Dir → CTree Addr} {J : CTree Addr} {s₁ : State K}
    (spliced : Spliced s s₁ ctx p kids J) (h : Holds compar s key (plug ctx (.node red p kids)))
    : ∃ s', (s₁.free p).put (link J) (cursor ctx) = some s' ∧ Holds compar s' key (plug ctx J)
      ∧ ¬ (plug ctx J).Has p
      ∧ ∀ b, (plug ctx (.node red p kids)).Has b ↔ b = p ∨ (plug ctx J).Has b := by
  have focus := h.layout.enter
  obtain ⟨inTree, frames, apart⟩ := (distinct_plug _ _).mp focus.distinct
  obtain ⟨-, -, notLeft, notRight, -⟩ := (CTree.distinct_node .left).mp inTree
  have outside : ¬ Has ctx p := apart p CTree.has_root
  have gone : ¬ J.Has p := by
    rw [spliced.has]
    exact not_or.mpr ⟨notLeft, notRight⟩
  have members (b : Addr) : (plug ctx (.node red p kids)).Has b ↔ b = p ∨ (plug ctx J).Has b := by
    rw [has_plug, has_plug, CTree.has_node .left, spliced.has, show Dir.left.other = .right from rfl,
      or_assoc]
  have sub : ((plug ctx J).traverse .right).Sublist ((plug ctx (.node red p kids)).traverse .right) := by
    rw [traverse_plug, traverse_plug, spliced.order, CTree.traverse_node]
    refine List.Sublist.append_left (List.Sublist.append_right ?_ _) _
    exact List.Sublist.append_left (List.sublist_cons_self _ _) _
  have heap {b : Addr} (ne : b ≠ p) : (s₁.free p).heap b = s₁.heap b := Function.update_of_ne ne _ _
  have agree {b : Addr} (ne : b ≠ p) : (s₁.free p).links.child b = s₁.links.child b := by
    simp only [State.links, heap ne]
  have ne_of_ctx {b : Addr} (inside : Has ctx b) : b ≠ p := by
    rintro rfl
    exact outside inside
  have alloc : ∀ b, Has ctx b → (s₁.free p).heap b ≠ none := by
    intro b inside
    rw [heap (ne_of_ctx inside), heap_ne_none spliced.keys]
    exact (h.allocated b).mpr (has_plug.mpr (Or.inr inside))
  have context : CtxAt (s₁.free p).links ctx (some p) :=
    spliced.context.congr rfl fun b inside => agree (ne_of_ctx inside)
  have tree : TreeAt (s₁.free p).links.child J := by
    refine spliced.tree.congr fun b inside => agree ?_
    rintro rfl
    exact gone inside
  have distinct : (plug ctx J).Distinct := List.Nodup.sublist sub focus.distinct
  obtain ⟨s', put, links, -, keys⟩ := put_cursor alloc (link J)
  refine ⟨s', put, ⟨?_, fun b => ?_, fun b node found => ?_, h.sorted.sublist sub⟩, ?_, members⟩
  · refine At.whole ?_
    rw [links]
    exact context.put_tree tree distinct
  · rw [heap_ne_none keys]
    by_cases here : b = p
    · subst here
      have freed : (s₁.free b).heap b = none := Function.update_self b _ _
      have notThere : ¬ (plug ctx J).Has b := by
        rw [has_plug]
        exact not_or.mpr ⟨gone, outside⟩
      exact ⟨fun there => absurd freed there, fun there => absurd there notThere⟩
    · rw [heap here, heap_ne_none spliced.keys, h.allocated b, members b]
      exact or_iff_right here
  · have known := keys b
    by_cases here : b = p
    · subst here
      rw [found, show (s₁.free b).heap b = none from Function.update_self b _ _] at known
      cases known
    · rw [found, heap here, spliced.keys, Option.map_some, eq_comm, Option.map_eq_some_iff] at known
      obtain ⟨old, there, same⟩ := known
      rw [← same, h.keys b old there]
  · rw [has_plug]
    exact not_or.mpr ⟨gone, outside⟩

/-- What `tdelete` does. -/
theorem tdelete_spec (order : TotalOrder compar) (h : Holds compar s key T) (vkey : K)
    (enough : (T.traverse .right).length < fuel)
    : ((∀ a, T.Has a → compar vkey (key a) ≠ 0)
        ∧ tdelete compar fuel s vkey (some .top) = some (none, s))
      ∨ ∃ a p s' T', T.Has a ∧ compar vkey (key a) = 0
        ∧ tdelete compar fuel s vkey (some .top) = some (some p, s')
        ∧ Holds compar s' key T' ∧ ¬ T'.Has a ∧ ∀ b, T.Has b ↔ b = a ∨ T'.Has b := by
  obtain ⟨ctx, found, whole, located, between, -, read, ends⟩ := h.search order vkey enough
  have top : s.get .top = some (link T) := congrArg some h.layout.context
  by_cases empty : T = .nil
  · subst empty
    refine Or.inl ⟨by simp, ?_⟩
    rw [tdelete, top]
    rfl
  obtain ⟨root, linked⟩ := Option.ne_none_iff_exists'.mp (mt link_eq_none.mp empty)
  have walks := tdelete.walk_eq compar vkey h.layout (fun a => (h.allocated a).mpr) h.keys empty
    (Nat.le_of_lt enough) root
  rw [located, cursor_nil] at walks
  rcases walks with ⟨rfl, walk⟩ | ⟨p, nonempty, walk⟩
  · refine Or.inl ⟨fun a member => ?_, ?_⟩
    · rw [whole, has_plug] at member
      exact between.absent (member.resolve_left (by simp))
    · rw [tdelete, top, linked]
      simp only [Option.bind_eq_bind, Option.bind_some, walk]
      rfl
  · obtain ⟨red, a, kids, rfl, equal⟩ := ends.resolve_left nonempty
    subst whole
    have short : ((kids .right).traverse .right).length ≤ fuel := by
      have := length_child_lt red a kids .right
      rw [traverse_plug, List.length_append, List.length_append] at enough
      omega
    obtain ⟨s₁, J, splice, spliced⟩ :=
      tdelete.splice_spec h.layout.enter (fun b => (h.allocated b).mpr) short
    obtain ⟨s', put, holds, gone, members⟩ := spliced.unlink h
    refine Or.inr ⟨a, p, s', plug ctx J, has_plug.mpr (Or.inl CTree.has_root), equal, ?_, holds, gone,
      members⟩
    rw [tdelete, top, linked]
    simp only [Option.bind_eq_bind, Option.bind_some, walk, read, link_node, splice, put]
    rfl

end BSDLibC.Tsearch
