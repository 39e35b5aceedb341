import Lockstep.Proofs.Barrier.Schedule

/- What looks for frames find.

   1. `pickAll?` takes the first frame of each of some kinds from a list, each behind the one before. A
      reader that looks for a frame of a kind finds the first one, passes over those before it and keeps
      what follows, however many of the bytes it holds already (`Reader.nextOf_of_drain`).
   2. A link `Follows` the frames of its peer: between barriers, what is left to read are the frames behind
      those that were taken; during one, no frame of the kind that it waits for was passed over. It goes
      on to do so when bytes arrive or are taken in, and in a look (`Link.Follows.look`).
   3. The frames that were taken from all peers, and the calls, decide a node's turns (`turns_eq`). -/
namespace Lockstep
open Barrier

/-! ## Frames of a kind -/

/-- The first frame of a kind, and the frames behind it. -/
def Frame.Kind.pick? (k : Frame.Kind) : List Frame → Option (Frame × List Frame)
  | [] => none
  | f :: fs => if f.kind = k then some (f, fs) else pick? k fs

/-- The first frame of each kind behind the one before it, and the frames behind all of them. -/
def pickAll? : List Frame.Kind → List Frame → Option (List Frame × List Frame)
  | [], fs => some ([], fs)
  | k :: ks, fs => (k.pick? fs).bind fun first =>
    (pickAll? ks first.2).map fun more => (first.1 :: more.1, more.2)

theorem pickAll?_append {ks : List Frame.Kind} {k : Frame.Kind} {fs taken left rest : List Frame}
    {f : Frame} (h : pickAll? ks fs = some (taken, left)) (hk : k.pick? left = some (f, rest)) :
    pickAll? (ks ++ [k]) fs = some (taken ++ [f], rest) := by
  induction ks generalizing fs taken with
  | nil =>
    cases h
    simp only [List.nil_append, pickAll?, hk, Option.bind_some, Option.map_some]
  | cons k' ks ih =>
    obtain ⟨first, hfirst, hmore⟩ := Option.bind_eq_some_iff.1 h
    obtain ⟨more, hks, hpair⟩ := Option.map_eq_some_iff.1 hmore
    cases hpair
    simp only [List.cons_append, pickAll?, hfirst, Option.bind_some, ih hks, Option.map_some]

/-! ## A look -/

namespace Reader

/-- What a reader gives is the first of the frames in its bytes, and whatever arrives, the others come
    out of what it keeps. -/
theorem toList_append_drain {r r' : Reader} {given : Option (Except Frame.Error Frame)}
    {more : List UInt8} {fs : List Frame} (h : (⟨r.held ++ more⟩ : Reader).drain.1 = fs.map .ok)
    (hn : r.next = (given, r')) :
    given.toList ++ (⟨r'.held ++ more⟩ : Reader).drain.1 = fs.map .ok := by
  have hnone : ∀ size, .error (.payloadTooLarge size) ∉ fs.map (Except.ok (ε := Frame.Error)) := by
    intro size hmem
    obtain ⟨f, -, hf⟩ := List.mem_map.1 hmem
    cases hf
  have hreads := (reads_next r).1.append more
  rw [hn] at hreads
  have hall := upToLoss_append_drain hreads
  rw [h, upToLoss_of_not_mem hnone] at hall
  rw [← hall]
  refine (upToLoss_of_not_mem fun size hmem => ?_).symm
  obtain ⟨size', hsize'⟩ := mem_upToLoss hmem
  exact hnone size' (hall ▸ hsize')

end Reader

/-- Where a barrier stands that waits for a kind, given the frames that were left before it and those
    that are left now: in front of the first frame of that kind, or behind it. -/
def Awaits (want : Frame.Kind) (before now : List Frame) : Option Frame → Prop
  | none => want.pick? now = want.pick? before
  | some f => want.pick? before = some (f, now)

/-- A look passes over frames of other kinds only, and takes the first of the wanted kind. -/
theorem Reader.nextOf_of_drain {want : Frame.Kind} {r r' : Reader}
    {found : Except Frame.Error (Option Frame)} {more : List UInt8} {fs : List Frame}
    (h : (⟨r.held ++ more⟩ : Reader).drain.1 = fs.map .ok)
    (hn : r.nextOf want = (found, r')) :
    ∃ slot fs', found = .ok slot ∧ Awaits want fs fs' slot ∧
      (⟨r'.held ++ more⟩ : Reader).drain.1 = fs'.map .ok := by
  fun_induction Reader.nextOf want r generalizing fs with
  | case1 r r' hnext =>
    cases hn
    exact ⟨none, fs, rfl, rfl, toList_append_drain h hnext⟩
  | case2 r e r' hnext =>
    -- The bytes hold frames only, so the reader gives no error.
    have hall := toList_append_drain h hnext
    cases fs with
    | nil => cases hall
    | cons f fs => cases (List.cons.inj hall).1
  | case3 r f r' hnext hkind =>
    cases hn
    have hall := toList_append_drain h hnext
    cases fs with
    | nil => cases hall
    | cons first fs =>
      obtain ⟨hfirst, hrest⟩ := List.cons.inj hall
      cases hfirst
      exact ⟨some f, fs, rfl, if_pos hkind, hrest⟩
  | case4 r f r' hnext hkind ih =>
    have hall := toList_append_drain h hnext
    cases fs with
    | nil => cases hall
    | cons first fs =>
      obtain ⟨hfirst, hrest⟩ := List.cons.inj hall
      cases hfirst
      obtain ⟨slot, fs', hfound, hawaits, hdrain⟩ := ih hrest hn
      have hskip : want.pick? (f :: fs) = want.pick? fs := if_neg hkind
      refine ⟨slot, fs', hfound, ?_, hdrain⟩
      cases slot with
      | none => exact hawaits.trans hskip.symm
      | some g => exact hskip.trans hawaits

/-! ## A link and the frames of its peer -/

namespace Link

/-- With the bytes that are still to come, these frames are left to be read. -/
def Brings (l : Link) (future : List UInt8) (fs : List Frame) : Prop :=
  (⟨l.unread future⟩ : Reader).drain.1 = fs.map .ok

/-- Where a link stands after barriers that took frames of some kinds, given all frames of its peer,
    and during one more barrier with what it waits for and took. -/
def Follows (l : Link) (future : List UInt8) (frames : List Frame) (kinds : List Frame.Kind)
    (taken : List Frame) : Option (Frame.Kind × Option Frame) → Prop
  | none => ∃ left, pickAll? kinds frames = some (taken, left) ∧ l.Brings future left
  | some (want, slot) => ∃ left fs, pickAll? kinds frames = some (taken, left) ∧
    Awaits want left fs slot ∧ l.Brings future fs

section
variable {l l' : Link} {future future' : List UInt8} {frames taken : List Frame}
  {kinds : List Frame.Kind} {want : Frame.Kind}

theorem Follows.of_unread {barrier : Option (Frame.Kind × Option Frame)}
    (h : l.Follows future frames kinds taken barrier) (hu : l'.unread future' = l.unread future) :
    l'.Follows future' frames kinds taken barrier := by
  have hbrings : ∀ {fs}, l.Brings future fs → l'.Brings future' fs := fun h => by rwa [Brings, hu]
  cases barrier with
  | none =>
    obtain ⟨left, hpick, hb⟩ := h
    exact ⟨left, hpick, hbrings hb⟩
  | some barrier =>
    obtain ⟨left, fs, hpick, hawaits, hb⟩ := h
    exact ⟨left, fs, hpick, hawaits, hbrings hb⟩

theorem unread_reach (l : Link) (n : News) (future : List UInt8) :
    (n.reach l).unread future = l.unread (n.bytes ++ future) := by
  cases n with
  | finish => rfl
  | arrive bytes => simp only [News.reach, News.bytes, arrive, unread, List.append_assoc]

/-- A barrier begins. -/
theorem Follows.begin (h : l.Follows future frames kinds taken none) (want : Frame.Kind) :
    l.Follows future frames kinds taken (some (want, none)) := by
  obtain ⟨left, hpick, hb⟩ := h
  exact ⟨left, left, hpick, rfl, hb⟩

theorem Follows.look (h : l.Follows future frames kinds taken (some (want, none)))
    {found : Except Frame.Error (Option Frame)} {reader : Reader}
    (hn : l.reader.nextOf want = (found, reader)) :
    ∃ slot, found = .ok slot ∧
      Follows { l with reader } future frames kinds taken (some (want, slot)) := by
  obtain ⟨left, fs, hpick, hawaits, hb⟩ := h
  obtain ⟨slot, fs', hfound, hlook, hdrain⟩ := Reader.nextOf_of_drain hb hn
  refine ⟨slot, hfound, left, fs', hpick, ?_, hdrain⟩
  cases slot with
  | none => exact Eq.trans hlook hawaits
  | some f => exact Eq.trans (Eq.symm hawaits) hlook

/-- A barrier ends that took a frame. -/
theorem Follows.pass {f : Frame}
    (h : l.Follows future frames kinds taken (some (want, some f))) :
    l.Follows future frames (kinds ++ [want]) (taken ++ [f]) none := by
  obtain ⟨left, fs, hpick, hawaits, hb⟩ := h
  exact ⟨fs, pickAll?_append hpick hawaits, hb⟩

end

end Link

/-! ## Turns -/

/-- Each call took, from a peer with some frames, the first one of the kind that it waited for behind the one
    that the call before it took, and some frames are left. -/
def Takes (kind : Call → Frame.Kind) (turns : List Turn) (peer : Nat)
    (frames left : List Frame) : Prop :=
  ∃ taken, pickAll? (turns.map fun t => kind t.call) frames = some (taken, left) ∧
    turns.map (fun t => t.taken[peer]?) = taken.map some

theorem Takes.eq {kind : Call → Frame.Kind} {turns turns' : List Turn} {peer : Nat}
    {frames left left' : List Frame} (h : Takes kind turns peer frames left)
    (h' : Takes kind turns' peer frames left') (hc : turns.map Turn.call = turns'.map Turn.call) :
    turns.map (fun t => t.taken[peer]?) = turns'.map fun t => t.taken[peer]? := by
  obtain ⟨taken, hpick, htaken⟩ := h
  obtain ⟨taken', hpick', htaken'⟩ := h'
  have hkinds := congrArg (List.map kind) hc
  rw [List.map_map, List.map_map] at hkinds
  have hsame : some (taken, left) = some (taken', left') := by
    rw [← hpick, ← hpick']
    exact congrArg (pickAll? · frames) hkinds
  cases hsame
  exact htaken.trans htaken'.symm

/-- Turns are the same when the calls, and the frames taken from every peer, are the same and decide
    what the calls give. -/
theorem turns_eq (peers : Nat) {turns turns' : List Turn}
    (hc : turns.map Turn.call = turns'.map Turn.call)
    (hl : ∀ t ∈ turns, t.taken.length = peers) (hl' : ∀ t ∈ turns', t.taken.length = peers)
    (ht : ∀ peer < peers,
      turns.map (fun t => t.taken[peer]?) = turns'.map fun t => t.taken[peer]?)
    (ho : ∀ t ∈ turns, ∀ t' ∈ turns', t.call = t'.call → t.taken = t'.taken →
      t.outcome = t'.outcome) : turns = turns' := by
  induction turns generalizing turns' with
  | nil => exact (List.map_eq_nil_iff.1 hc.symm).symm
  | cons t turns ih =>
    cases turns' with
    | nil => cases hc
    | cons t' turns' =>
      obtain ⟨hcall, hcalls⟩ := List.cons.inj hc
      have hlength := hl t List.mem_cons_self
      have hlength' := hl' t' List.mem_cons_self
      have htaken : t.taken = t'.taken := by
        refine List.ext_getElem? fun peer => ?_
        by_cases hp : peer < peers
        · exact (List.cons.inj (ht peer hp)).1
        · rw [List.getElem?_eq_none (by omega), List.getElem?_eq_none (by omega)]
      have houtcome := ho t List.mem_cons_self t' List.mem_cons_self hcall htaken
      have hrest : turns = turns' := ih hcalls
        (fun t h => hl t (List.mem_cons_of_mem _ h)) (fun t h => hl' t (List.mem_cons_of_mem _ h))
        (fun peer hp => (List.cons.inj (ht peer hp)).2)
        fun t h t' h' => ho t (List.mem_cons_of_mem _ h) t' (List.mem_cons_of_mem _ h')
      obtain ⟨c, taken, o⟩ := t
      obtain ⟨c', taken', o'⟩ := t'
      cases hcall
      cases htaken
      cases houtcome
      rw [hrest]

end Lockstep
