import XfUtil.Base.Links

/-!
# The intrusive list

`list.h`: circular doubly linked lists through `ListNode`s embedded in other
objects. A list is the address of its head node, and every function works on
the links of the whole heap.
-/

namespace XfUtil

open Links

def listInit (l : Heap) (list : Nat) : Heap := (l.setNext list list).setPrev list list

def listEmtpy (l : Heap) (list : Nat) : Bool := l.next list = list

def listHead (l : Heap) (list : Nat) : Nat := l.next list

def listTail (l : Heap) (list : Nat) : Nat := l.prev list

/-- `ListInsert_`, its four stores in order. -/
def listInsert_ (l : Heap) (newNode prev next : Nat) : Heap :=
  (((l.setPrev next newNode).setNext newNode next).setPrev newNode prev).setNext prev newNode

def listAddHead (l : Heap) (newNode list : Nat) : Heap := listInsert_ l newNode list (l.next list)

def listAddTail (l : Heap) (newNode list : Nat) : Heap := listInsert_ l newNode (l.prev list) list

/-- `ListDelete_`. -/
def listDelete_ (l : Heap) (prev next : Nat) : Heap := (l.setPrev next prev).setNext prev next

def listDelete (l : Heap) (node : Nat) : Heap := listDelete_ l (l.prev node) (l.next node)

end XfUtil
