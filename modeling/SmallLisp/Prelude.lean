import SmallLisp.Text
/-!
The prelude that comes with the system: derived functions on numbers and lists, as source text.
-/

namespace SmallLisp

/-- The source of the bundled prelude. -/
def bundledPrelude : Text := "
(define zero? (lambda (n) (= n 0)))

(define abs (lambda (n) (if (< n 0) (- n) n)))

(define max (lambda (a b) (if (< a b) b a)))

(define min (lambda (a b) (if (< a b) a b)))

(define map
  (lambda (f lst)
    (if (null? lst)
        '()
        (cons (f (car lst)) (map f (cdr lst))))))

(define filter
  (lambda (keep? lst)
    (if (null? lst)
        '()
        (if (keep? (car lst))
            (cons (car lst) (filter keep? (cdr lst)))
            (filter keep? (cdr lst))))))

; (f element accumulator), from left to right
(define foldl
  (lambda (f acc lst)
    (if (null? lst)
        acc
        (foldl f (f (car lst) acc) (cdr lst)))))

(define foldr
  (lambda (f acc lst)
    (if (null? lst)
        acc
        (f (car lst) (foldr f acc (cdr lst))))))

(define append
  (lambda (a b)
    (if (null? a)
        b
        (cons (car a) (append (cdr a) b)))))

(define reverse (lambda (lst) (foldl cons '() lst)))

(define list-ref
  (lambda (lst n)
    (if (= n 0)
        (car lst)
        (list-ref (cdr lst) (- n 1)))))
"

end SmallLisp
