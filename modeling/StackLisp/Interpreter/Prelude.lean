/-!
# The prelude

Macros and list functions written in Lisp, which are compiled when an
interpreter starts. Their order matters: a call compiles only when its function
or macro is already defined.
-/

namespace StackLisp.Prelude

/-- Compositions of `car` and `cdr`. -/
def accessors : List String :=
  [ "(defun cadr (x) (car (cdr x)))",
    "(defun cddr (x) (cdr (cdr x)))",
    "(defun caar (x) (car (car x)))",
    "(defun cdar (x) (cdr (car x)))",
    "(defun caddr (x) (car (cddr x)))" ]

/-- Conditionals, and a sequence that gives its first value. -/
def conditionals : List String :=
  [ "(defmacro when (test &body body)
       `(if ,test (progn ,@body)))",
    "(defmacro unless (test &body body)
       `(if ,test nil (progn ,@body)))",
    "(defmacro cond (&rest clauses)
       (if (null clauses)
           nil
           (let ((clause (car clauses)))
             (if (null (cdr clause))
                 `(or ,(car clause) (cond ,@(cdr clauses)))
                 `(if ,(car clause)
                      (progn ,@(cdr clause))
                      (cond ,@(cdr clauses)))))))",
    "(defmacro prog1 (first &body body)
       (let ((g (gensym)))
         `(let ((,g ,first))
            ,@body
            ,g)))" ]

/-- Assignments to places, which are variables. -/
def places : List String :=
  [ "(defmacro incf (place &rest delta)
       `(setq ,place (+ ,place ,(if delta (car delta) 1))))",
    "(defmacro decf (place &rest delta)
       `(setq ,place (- ,place ,(if delta (car delta) 1))))",
    "(defmacro push (item place)
       `(setq ,place (cons ,item ,place)))",
    "(defmacro pop (place)
       `(prog1 (car ,place) (setq ,place (cdr ,place))))" ]

/-- Loops. Each is a tagbody inside a block `nil`, so that `(return v)` leaves it. -/
def loops : List String :=
  [ "(defmacro loop (&body body)
       (let ((top (gensym 'loop)))
         `(block nil
            (tagbody
               ,top
               ,@body
               (go ,top)))))",
    "(defmacro dolist (iter &body body)
       (let ((var (car iter))
             (tail (gensym))
             (start (gensym))
             (end (gensym)))
         `(block nil
            (let ((,tail ,(cadr iter)))
              (tagbody
                 ,start
                 (if (null ,tail) (go ,end))
                 (let ((,var (car ,tail))) ,@body)
                 (setq ,tail (cdr ,tail))
                 (go ,start)
                 ,end)
              ,(caddr iter)))))",
    "(defmacro dotimes (iter &body body)
       (let ((var (car iter))
             (limit (gensym))
             (start (gensym))
             (end (gensym)))
         `(block nil
            (let ((,var 0) (,limit ,(cadr iter)))
              (tagbody
                 ,start
                 (if (>= ,var ,limit) (go ,end))
                 ,@body
                 (setq ,var (1+ ,var))
                 (go ,start)
                 ,end)
              ,(caddr iter)))))" ]

/-- Functions on lists. -/
def lists : List String :=
  [ "(defun nthcdr (n list)
       (if (zerop n)
           list
           (nthcdr (1- n) (cdr list))))",
    "(defun nth (n list)
       (car (nthcdr n list)))",
    "(defun last (list)
       (if (consp (cdr list))
           (last (cdr list))
           list))",
    "(defun member (item list)
       (cond ((null list) nil)
             ((eql item (car list)) list)
             (t (member item (cdr list)))))",
    "(defun assoc (key alist)
       (cond ((null alist) nil)
             ((eql key (caar alist)) (car alist))
             (t (assoc key (cdr alist)))))",
    "(defun mapcar (f list)
       (let ((result nil))
         (dolist (x list (reverse result))
           (push (funcall f x) result))))" ]

/-- The definitions of the prelude, in order. -/
def definitions : List String := accessors ++ conditionals ++ places ++ loops ++ lists

/-- The prelude as one text. -/
def text : String := "\n".intercalate definitions

end StackLisp.Prelude
